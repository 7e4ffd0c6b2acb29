import Taiyi.Protocol.AssetSymbol

set_option autoImplicit false

namespace Taiyi.Protocol

open Library.Digits

namespace AssetSymbol

/-- `fc::raw::pack`: eight bytes for a legacy symbol, four for a FAI. -/
def pack (s : AssetSymbol) : Except String (List UInt8) :=
  match s.space with
  | .legacySpace =>
    match s.legacy with
    | some l => .ok (bytes 8 l.ser)
    | none => .error "Cannot serialize unknown asset symbol"
  | .faiSpace => .ok (bytes 4 s.assetNum)

/-- A read of `n` bytes from a stream, with what is left of it. -/
def read (stream : List UInt8) (n : ℕ) : Except String (List UInt8 × List UInt8) :=
  if n ≤ stream.length then .ok (stream.take n, stream.drop n)
  else .error "read datastream over the end"

/-- The low word of a serialized legacy symbol. -/
def lowWord (l : Legacy) : ℕ := l.ser &&& 0xFFFFFFFF

/-- `fc::raw::unpack`, with what is left of the stream. -/
def unpack (stream : List UInt8) : Except String (AssetSymbol × List UInt8) :=
  match read stream 4 with
  | .error e => .error e
  | .ok (first, stream) =>
    match Legacy.ofNumber lowWord (word first) with
    | some l =>
      match read stream 4 with
      | .error e => .error e
      | .ok (second, stream) =>
        if word (first ++ second) = l.ser then
          let sym := fromAssetNum l.assetNum
          match sym.validate with
          | .error e => .error e
          | .ok () => .ok (sym, stream)
        else .error "invalid asset bits"
    | none =>
      let sym := fromAssetNum (word first)
      match sym.validate with
      | .error e => .error e
      | .ok () => .ok (sym, stream)

section Bytes

variable {s : AssetSymbol} {l : Legacy} {stream rest : List UInt8}

theorem lowWord_injective : Function.Injective lowWord := by
  intro l l' h
  cases l <;> cases l' <;> first | rfl | exact absurd h (by decide)

/-- The words of the serialized legacy symbols have no control bit. -/
theorem lowWord_eq (l : Legacy) : lowWord l = l.ser % 2 ^ 32 ∧ lowWord l / 16 % 2 = 0 ∧ l.ser < 2 ^ 64 := by
  cases l <;> decide

theorem legacy_fromAssetNum (l : Legacy) : (fromAssetNum l.assetNum).legacy = some l :=
  legacy_eq_some.mpr (Nat.mod_eq_of_lt l.assetNum_lt).symm

theorem valid_of_legacy (h : s.legacy = some l) : s.Valid :=
  valid_iff.mpr (.inl (by simp [h]))

theorem read_append {a : List UInt8} : read (a ++ rest) a.length = .ok (a, rest) := by
  rw [read, if_pos (by simp), List.take_left, List.drop_left]

theorem read_ok {n : ℕ} {a : List UInt8} (h : read stream n = .ok (a, rest)) :
    stream = a ++ rest ∧ a.length = n := by
  unfold read at h
  split at h
  · next hle =>
    cases h
    exact ⟨(List.take_append_drop n stream).symm, List.length_take_of_le hle⟩
  · cases h

theorem pack_legacy (h : s.legacy = some l) : s.pack = .ok (bytes 8 l.ser) := by
  simp only [pack, space, h]

theorem pack_fai (h : s.legacy = none) : s.pack = .ok (bytes 4 s.assetNum) := by
  simp only [pack, space, h]

/-- The packer accepts every symbol. -/
theorem pack_ok (s : AssetSymbol) : ∃ packed, s.pack = .ok packed := by
  cases h : s.legacy with
  | some l => exact ⟨_, pack_legacy h⟩
  | none => exact ⟨_, pack_fai h⟩

/-- The two words of a serialized legacy symbol. -/
theorem bytes_ser (l : Legacy) : bytes 8 l.ser = bytes 4 (lowWord l) ++ bytes 4 (l.ser / 2 ^ 32) := by
  cases l <;> decide

/-- The two forms that are unpacked. -/
inductive Unpacks : List UInt8 → AssetSymbol → List UInt8 → Prop
  | legacy (l : Legacy) (rest) :
    Unpacks (bytes 8 l.ser ++ rest) (fromAssetNum l.assetNum) rest
  | word {first s} (rest) (length : first.length = 4) (plain : ∀ l, lowWord l ≠ word first)
    (num : word first = s.assetNum) (valid : s.Valid) : Unpacks (first ++ rest) s rest

theorem Unpacks.valid (h : Unpacks stream s rest) : s.Valid := by
  cases h with
  | legacy l => exact valid_of_legacy (legacy_fromAssetNum l)
  | word _ _ _ _ hv => exact hv

theorem unpack_of_legacy (l : Legacy) (rest : List UInt8) :
    unpack (bytes 8 l.ser ++ rest) = .ok (fromAssetNum l.assetNum, rest) := by
  obtain ⟨hlow, -, hlt⟩ := lowWord_eq l
  have hfirst : read (bytes 8 l.ser ++ rest) 4 =
      .ok (bytes 4 (lowWord l), bytes 4 (l.ser / 2 ^ 32) ++ rest) := by
    rw [bytes_ser, List.append_assoc]
    exact read_append
  have hword : word (bytes 4 (lowWord l)) = lowWord l := word_bytes (by omega)
  have hsecond : read (bytes 4 (l.ser / 2 ^ 32) ++ rest) 4 = .ok (bytes 4 (l.ser / 2 ^ 32), rest) :=
    read_append
  have hser : word (bytes 4 (lowWord l) ++ bytes 4 (l.ser / 2 ^ 32)) = l.ser := by
    rw [← bytes_ser]
    exact word_bytes hlt
  have hvalid : (fromAssetNum l.assetNum).validate = .ok () := valid_of_legacy (legacy_fromAssetNum l)
  simp only [unpack, hfirst, hword, (Legacy.ofNumber_eq_some lowWord_injective).mpr rfl, hsecond, hser,
    ↓reduceIte, hvalid]

theorem unpack_of_word {first : List UInt8} (hlen : first.length = 4)
    (hplain : ∀ l, lowWord l ≠ word first) (hnum : word first = s.assetNum) (hv : s.Valid) :
    unpack (first ++ rest) = .ok (s, rest) := by
  have hfirst : read (first ++ rest) 4 = .ok (first, rest) := hlen ▸ read_append
  have hs : fromAssetNum (word first) = s := (fromAssetNum_eq (hnum ▸ s.fits)).mpr hnum
  have hvalid : s.validate = .ok () := hv
  simp only [unpack, hfirst, Legacy.ofNumber_eq_none.mpr hplain, hs, hvalid]

theorem unpack_ok_iff : unpack stream = .ok (s, rest) ↔ Unpacks stream s rest := by
  constructor
  · intro h
    unfold unpack at h
    split at h
    · cases h
    next first tail hfirst =>
    obtain ⟨rfl, hlen⟩ := read_ok hfirst
    split at h
    · next l hl =>
      split at h
      · cases h
      next second tail' hsecond =>
      obtain ⟨rfl, hlen'⟩ := read_ok hsecond
      split at h
      · next hser =>
        simp only at h
        split at h
        · cases h
        · cases h
          have hbytes : first ++ second = bytes 8 l.ser := by
            have := bytes_word (first ++ second)
            rwa [List.length_append, hlen, hlen', hser, eq_comm] at this
          rw [← List.append_assoc, hbytes]
          exact .legacy l _
      · cases h
    · next hnone =>
      simp only at h
      split at h
      · cases h
      · next hv =>
        cases h
        have hlt : word first < 2 ^ 32 := by
          have := word_lt first
          rw [hlen] at this
          omega
        exact .word _ hlen (Legacy.ofNumber_eq_none.mp hnone) (Nat.mod_eq_of_lt hlt).symm hv
  · intro h
    cases h with
    | legacy l => exact unpack_of_legacy l _
    | word _ hlen hplain hnum hv => exact unpack_of_word hlen hplain hnum hv

/-- A valid FAI has its control bit, unlike the words of the serialized legacy symbols. -/
theorem lowWord_ne (h : s.legacy = none) (hv : s.Valid) (l : Legacy) : lowWord l ≠ s.assetNum := by
  obtain ⟨d, p, -, -, hp, hn⟩ := (valid_iff.mp hv).resolve_left (by simp [h])
  have hp16 : p < 16 := hp.trans_lt (by decide)
  obtain ⟨-, hbit, -⟩ := lowWord_eq l
  omega

theorem lowWord_ne_assetNum (l l' : Legacy) : lowWord l' ≠ l.assetNum := by
  cases l <;> cases l' <;> decide

/-- Unpacking the packed bytes gives back the symbol and leaves what follows them. -/
def PacksBack (s : AssetSymbol) : Prop :=
  ∃ packed, s.pack = .ok packed ∧ ∀ rest, unpack (packed ++ rest) = .ok (s, rest)

/-- What is unpacked packs into the bytes that were consumed. -/
def Canonical (stream : List UInt8) : Prop :=
  ∀ s rest, unpack stream = .ok (s, rest) → ∃ packed, s.pack = .ok packed ∧ stream = packed ++ rest

/-- The first word is the asset number of a legacy symbol, which is not its serialized form. -/
def StartsWithLegacyNum (stream : List UInt8) : Prop :=
  4 ≤ stream.length ∧ ∃ l : Legacy, word (stream.take 4) = l.assetNum

theorem packsBack_iff_valid : PacksBack s ↔ s.Valid := by
  constructor
  · rintro ⟨packed, -, h⟩
    exact (unpack_ok_iff.mp (h [])).valid
  · intro hv
    cases hl : s.legacy with
    | some l =>
      have hs : fromAssetNum l.assetNum = s := (fromAssetNum_eq l.assetNum_lt).mpr (legacy_eq_some.mp hl)
      refine ⟨_, pack_legacy hl, fun rest ↦ ?_⟩
      rw [unpack_of_legacy, hs]
    | none =>
      have hnum : word (bytes 4 s.assetNum) = s.assetNum := word_bytes s.fits
      refine ⟨_, pack_fai hl, fun rest ↦ unpack_of_word (length_bytes 4 _) (fun l ↦ ?_) hnum hv⟩
      rw [hnum]
      exact lowWord_ne hl hv l

theorem canonical_iff : Canonical stream ↔ ¬StartsWithLegacyNum stream := by
  constructor
  · rintro hc ⟨hlen, l, hl⟩
    have hs : (fromAssetNum l.assetNum).assetNum = l.assetNum := Nat.mod_eq_of_lt l.assetNum_lt
    have hok : unpack (stream.take 4 ++ stream.drop 4) = .ok (fromAssetNum l.assetNum, stream.drop 4) :=
      unpack_of_word (List.length_take_of_le hlen) (fun l' ↦ hl ▸ lowWord_ne_assetNum l l')
        (hl.trans hs.symm) (valid_of_legacy (legacy_fromAssetNum l))
    rw [List.take_append_drop] at hok
    obtain ⟨packed, hp, heq⟩ := hc _ _ hok
    rw [pack_legacy (legacy_fromAssetNum l), Except.ok.injEq] at hp
    have hcount := congrArg List.length heq
    rw [List.length_append, ← hp, length_bytes, List.length_drop] at hcount
    omega
  · intro hnot s rest h
    cases unpack_ok_iff.mp h with
    | legacy l => exact ⟨_, pack_legacy (legacy_fromAssetNum l), rfl⟩
    | @word first _ _ hlen _ hnum _ =>
      have hnone : s.legacy = none := legacy_eq_none.mpr fun l hl ↦
        hnot ⟨by rw [List.length_append]; omega, l, by rw [List.take_left' hlen, hnum, hl]⟩
      refine ⟨_, pack_fai hnone, ?_⟩
      rw [← hnum, ← hlen, bytes_word]

end Bytes

/-- The packer takes every symbol, and the bytes lead back to the valid ones alone; what is
unpacked has the packed form unless the bytes begin with a number of a legacy symbol. -/
theorem symbolBytes_iff (s : AssetSymbol) (stream : List UInt8) :
    ((∃ packed, s.pack = .ok packed) ∧ (PacksBack s ↔ s.Valid)) ∧
    (Canonical stream ↔ ¬StartsWithLegacyNum stream) :=
  ⟨⟨pack_ok s, packsBack_iff_valid⟩, canonical_iff⟩

/-- The asset number of YANG unpacks as YANG, whose packed form has eight bytes. -/
theorem not_canonical_yang : ¬∀ stream, Canonical stream := by
  intro h
  exact canonical_iff.mp (h [0x23, 0x20, 0xBC, 0xBE]) ⟨by decide, .yang, by decide⟩

end AssetSymbol

end Taiyi.Protocol
