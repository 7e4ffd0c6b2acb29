import Taiyi.Library.Digits

set_option autoImplicit false

namespace Taiyi.Protocol

open Library.Digits

/-- In which order a machine keeps the bytes of a word. -/
inductive Endian
  | little
  | big

/-- What a storage type of the strings offers: its value-initialised object, the bytes of an object
in memory and back, the reversal of the byte order, and the comparison. -/
class Storage (S : Type) where
  zero : S
  repr : Endian → S → List UInt8
  ofRepr : Endian → List UInt8 → S
  endianReverse : S → S
  lt : S → S → Bool

namespace Storage

def bigToNative {S : Type} [Storage S] (native : Endian) (d : S) : S :=
  match native with
  | .little => endianReverse d
  | .big => d

def nativeToBig {S : Type} [Storage S] (native : Endian) (d : S) : S :=
  match native with
  | .little => endianReverse d
  | .big => d

def word64Repr (native : Endian) (w : UInt64) : List UInt8 :=
  match native with
  | .little => bytes 8 w.toNat
  | .big => (bytes 8 w.toNat).reverse

def word64OfRepr (native : Endian) (bs : List UInt8) : UInt64 :=
  match native with
  | .little => UInt64.ofNat (word bs)
  | .big => UInt64.ofNat (word bs.reverse)

instance : Storage UInt64 where
  zero := 0
  repr := word64Repr
  ofRepr := word64OfRepr
  endianReverse w := UInt64.ofNat (word (bytes 8 w.toNat).reverse)
  lt a b := a < b

end Storage

/-- `fc::uint128`, of which only the use is given here. -/
class Uint128 (U : Type) where
  uint128 : UInt64 → UInt64 → U
  hi : U → UInt64
  lo : U → UInt64
  zero : U
  repr : Endian → U → List UInt8
  ofRepr : Endian → List UInt8 → U
  lt : U → U → Bool

/-- What the strings rely on: the members are what the constructor was given, they begin as zero and
lie in memory in their order, and the high word is compared before the low one. -/
class LawfulUint128 (U : Type) [Uint128 U] : Prop where
  hi_uint128 : ∀ h l : UInt64, Uint128.hi (Uint128.uint128 h l : U) = h
  lo_uint128 : ∀ h l : UInt64, Uint128.lo (Uint128.uint128 h l : U) = l
  ext : ∀ u v : U, Uint128.hi u = Uint128.hi v → Uint128.lo u = Uint128.lo v → u = v
  hi_zero : Uint128.hi (Uint128.zero : U) = 0
  lo_zero : Uint128.lo (Uint128.zero : U) = 0
  repr_eq : ∀ (native : Endian) (u : U), Uint128.repr native u =
    Storage.repr native (Uint128.hi u) ++ Storage.repr native (Uint128.lo u)
  repr_ofRepr : ∀ (native : Endian) (bs : List UInt8), bs.length = 16 →
    Uint128.repr native (Uint128.ofRepr native bs : U) = bs
  lt_iff : ∀ u v : U, Uint128.lt u v = true ↔
    Uint128.hi u < Uint128.hi v ∨ Uint128.hi u = Uint128.hi v ∧ Uint128.lo u < Uint128.lo v

instance {U : Type} [Uint128 U] : Storage U where
  zero := Uint128.zero
  repr := Uint128.repr
  ofRepr := Uint128.ofRepr
  endianReverse u := Uint128.uint128 (Storage.endianReverse (Uint128.hi u)) (Storage.endianReverse (Uint128.lo u))
  lt := Uint128.lt

structure ErPair (A B : Type) where
  first : A
  second : B

/-- The pair comparison of `std::tie`, and the members in memory in their order. -/
instance {A B : Type} [Storage A] [Storage B] : Storage (ErPair A B) where
  zero := ⟨Storage.zero, Storage.zero⟩
  repr native p := Storage.repr native p.first ++ Storage.repr native p.second
  ofRepr native bs :=
    let n := (Storage.repr native (Storage.zero : A)).length
    ⟨Storage.ofRepr native (bs.take n), Storage.ofRepr native (bs.drop n)⟩
  endianReverse p := ⟨Storage.endianReverse p.first, Storage.endianReverse p.second⟩
  lt p q := Storage.lt p.first q.first || (!Storage.lt q.first p.first && Storage.lt p.second q.second)

/-- An object is known by its bytes, with the most significant one first they give the order, and
the reversal turns the bytes of each word around. -/
class LawfulStorage (S : Type) [Storage S] (size : outParam ℕ) : Prop where
  length_repr : ∀ (native : Endian) (d : S), (Storage.repr native d).length = size
  repr_ofRepr : ∀ (native : Endian) (bs : List UInt8), bs.length = size →
    Storage.repr native (Storage.ofRepr native bs : S) = bs
  repr_injective : ∀ {d d' : S}, Storage.repr .big d = Storage.repr .big d' → d = d'
  repr_zero : ∀ native, Storage.repr native (Storage.zero : S) = List.replicate size 0
  repr_endianReverse : ∀ d : S, Storage.repr .little (Storage.endianReverse d) = Storage.repr .big d ∧
    Storage.repr .big (Storage.endianReverse d) = Storage.repr .little d
  lt_iff : ∀ d d' : S, Storage.lt d d' = true ↔ Storage.repr .big d < Storage.repr .big d'

section Laws

theorem toNat_word {bs : List UInt8} (h : bs.length = 8) : (UInt64.ofNat (word bs)).toNat = word bs := by
  have hlt := word_lt bs
  rw [h] at hlt
  exact UInt64.toNat_ofNat_of_lt' hlt

theorem bytes_toNat_word {bs : List UInt8} (h : bs.length = 8) : bytes 8 (UInt64.ofNat (word bs)).toNat = bs := by
  rw [toNat_word h, ← h]
  exact bytes_word bs

theorem word_bytes_toNat (w : UInt64) : word (bytes 8 w.toNat) = w.toNat := word_bytes w.toNat_lt

instance : LawfulStorage UInt64 8 where
  length_repr native w := by
    cases native with
    | little => exact length_bytes 8 _
    | big => exact List.length_reverse.trans (length_bytes 8 _)
  repr_ofRepr native bs h := by
    cases native with
    | little => exact bytes_toNat_word h
    | big =>
      change (bytes 8 (UInt64.ofNat (word bs.reverse)).toNat).reverse = bs
      rw [bytes_toNat_word (List.length_reverse.trans h), List.reverse_reverse]
  repr_injective {w w'} h := by
    have hbytes := List.reverse_injective h
    apply UInt64.toNat_inj.mp
    rw [← word_bytes_toNat w, hbytes, word_bytes_toNat]
  repr_zero native := by cases native <;> rfl
  repr_endianReverse w := by
    have hlen : (bytes 8 w.toNat).reverse.length = 8 := List.length_reverse.trans (length_bytes 8 _)
    have hbytes := bytes_toNat_word hlen
    exact ⟨hbytes, (congrArg List.reverse hbytes).trans (List.reverse_reverse _)⟩
  lt_iff w w' := by
    have hlen : (bytes 8 w.toNat).reverse.length = (bytes 8 w'.toNat).reverse.length := by
      simp only [List.length_reverse, length_bytes]
    change decide (w < w') = true ↔ (bytes 8 w.toNat).reverse < (bytes 8 w'.toNat).reverse
    rw [← word_reverse_lt_iff hlen, List.reverse_reverse, List.reverse_reverse, word_bytes_toNat, word_bytes_toNat,
      decide_eq_true_iff, UInt64.lt_iff_toNat_lt]

/-- Of two objects, the first not before the second, the second is before the first or they are one. -/
theorem lt_eq_false_iff {A : Type} [Storage A] {m : ℕ} [LawfulStorage A m] {d d' : A}
    (h : Storage.lt d d' = false) : Storage.lt d' d = false ↔ d = d' := by
  have hle : ¬Storage.repr .big d < Storage.repr .big d' := by
    rw [← LawfulStorage.lt_iff, h]
    exact Bool.false_ne_true
  constructor
  · intro h'
    have hge : ¬Storage.repr .big d' < Storage.repr .big d := by
      rw [← LawfulStorage.lt_iff, h']
      exact Bool.false_ne_true
    exact LawfulStorage.repr_injective (List.le_antisymm hge hle)
  · rintro rfl
    exact h

variable {S A B : Type} [Storage S] [Storage A] [Storage B] {m n : ℕ} [LawfulStorage A m] [LawfulStorage B n]

/-- Two parts that lie in memory one behind the other, and of which the first decides the order. -/
theorem lawful_of_parts (f : S → A) (g : S → B) (hext : ∀ {d d'}, f d = f d' → g d = g d' → d = d')
    (hrepr : ∀ native d, Storage.repr native d = Storage.repr native (f d) ++ Storage.repr native (g d))
    (hofRepr : ∀ native (bs : List UInt8), bs.length = m + n →
      Storage.repr native (Storage.ofRepr native bs : S) = bs)
    (hzero : f Storage.zero = Storage.zero ∧ g Storage.zero = Storage.zero)
    (hreverse : ∀ d, f (Storage.endianReverse d) = Storage.endianReverse (f d) ∧
      g (Storage.endianReverse d) = Storage.endianReverse (g d))
    (hlt : ∀ d d', Storage.lt d d' = true ↔
      Storage.lt (f d) (f d') = true ∨ f d = f d' ∧ Storage.lt (g d) (g d') = true) : LawfulStorage S (m + n) where
  length_repr native d := by
    rw [hrepr, List.length_append, LawfulStorage.length_repr, LawfulStorage.length_repr]
  repr_ofRepr := hofRepr
  repr_injective {d d'} h := by
    rw [hrepr, hrepr] at h
    obtain ⟨hf, hg⟩ := List.append_inj h (by rw [LawfulStorage.length_repr, LawfulStorage.length_repr])
    exact hext (LawfulStorage.repr_injective hf) (LawfulStorage.repr_injective hg)
  repr_zero native := by
    rw [hrepr, hzero.1, hzero.2, LawfulStorage.repr_zero, LawfulStorage.repr_zero, List.replicate_append_replicate]
  repr_endianReverse d := by
    obtain ⟨hf, hg⟩ := hreverse d
    obtain ⟨hf₁, hf₂⟩ := LawfulStorage.repr_endianReverse (f d)
    obtain ⟨hg₁, hg₂⟩ := LawfulStorage.repr_endianReverse (g d)
    simp only [hrepr, hf, hg, hf₁, hf₂, hg₁, hg₂, and_self]
  lt_iff d d' := by
    have hlen : (Storage.repr .big (f d)).length = (Storage.repr .big (f d')).length := by
      rw [LawfulStorage.length_repr, LawfulStorage.length_repr]
    have heq : Storage.repr .big (f d) = Storage.repr .big (f d') ↔ f d = f d' :=
      ⟨LawfulStorage.repr_injective, congrArg _⟩
    rw [hlt, hrepr, hrepr, append_lt_append_iff hlen, LawfulStorage.lt_iff, LawfulStorage.lt_iff, heq]

instance {U : Type} [Uint128 U] [LawfulUint128 U] : LawfulStorage U 16 :=
  lawful_of_parts (m := 8) (n := 8) (Uint128.hi : U → UInt64) (Uint128.lo : U → UInt64)
    (fun {u v} ↦ LawfulUint128.ext u v) LawfulUint128.repr_eq LawfulUint128.repr_ofRepr
    ⟨LawfulUint128.hi_zero, LawfulUint128.lo_zero⟩
    (fun _ ↦ ⟨LawfulUint128.hi_uint128 _ _, LawfulUint128.lo_uint128 _ _⟩) fun u v ↦ by
      rw [show Storage.lt u v = Uint128.lt u v from rfl, LawfulUint128.lt_iff]
      simp [Storage.lt]

instance : LawfulStorage (ErPair A B) (m + n) :=
  lawful_of_parts ErPair.first ErPair.second (fun {p q} hf hg ↦ by cases p; cases q; cases hf; cases hg; rfl)
    (fun _ _ ↦ rfl)
    (fun native bs h ↦ by
      have hlen : (Storage.repr native (Storage.zero : A)).length = m := LawfulStorage.length_repr native _
      change Storage.repr native (Storage.ofRepr native (bs.take _) : A) ++
        Storage.repr native (Storage.ofRepr native (bs.drop _) : B) = bs
      rw [hlen, LawfulStorage.repr_ofRepr native _ (List.length_take_of_le (by omega)),
        LawfulStorage.repr_ofRepr native _ (by rw [List.length_drop, h, Nat.add_sub_cancel_left]),
        List.take_append_drop])
    ⟨rfl, rfl⟩ (fun _ ↦ ⟨rfl, rfl⟩) fun p q ↦ by
      change (Storage.lt p.first q.first || (!Storage.lt q.first p.first && Storage.lt p.second q.second)) = true ↔ _
      rw [Bool.or_eq_true, Bool.and_eq_true, Bool.not_eq_true']
      refine or_congr_right' fun hpq ↦ and_congr_left fun _ ↦ ?_
      exact lt_eq_false_iff (by simpa using hpq)

end Laws

structure FixedString (S : Type) where
  data : S

namespace FixedString

variable {S : Type} [Storage S] (native : Endian)

/-- The bytes are copied over those of a fresh object, as many as it has. -/
def ofString (str : List UInt8) : FixedString S :=
  let d := Storage.repr native (Storage.zero : S)
  let d' := if str.length ≤ d.length then str ++ d.drop str.length else str.take d.length
  ⟨Storage.bigToNative native (Storage.ofRepr native d')⟩

def asString (f : FixedString S) : List UInt8 :=
  (Storage.repr native (Storage.nativeToBig native f.data)).takeWhile (· ≠ 0)

def lt (a b : FixedString S) : Bool := Storage.lt a.data b.data

section Pad

/-- A string with zeros behind it up to the size of the storage. -/
def pad (size : ℕ) (str : List UInt8) : List UInt8 := str ++ List.replicate (size - str.length) 0

variable {size : ℕ} {s t : List UInt8}

theorem pad_cons (c : UInt8) (s : List UInt8) : pad (size + 1) (c :: s) = c :: pad size s := by
  rw [pad, List.length_cons, Nat.succ_sub_succ, List.cons_append, pad]

theorem takeWhile_pad (hs : 0 ∉ s) : (pad size s).takeWhile (· ≠ 0) = s := by
  rw [pad, List.takeWhile_append_of_pos fun c hc ↦ decide_eq_true (ne_of_mem_of_not_mem hc hs)]
  cases size - s.length with
  | zero => exact List.append_nil s
  | succ n =>
    rw [List.replicate_succ, List.takeWhile_cons_of_neg (by simp)]
    exact List.append_nil s

theorem zero_lt_of_ne {c : UInt8} (h : 0 ≠ c) : 0 < c := by
  rw [UInt8.lt_iff_toNat_lt]
  have : (0 : UInt8).toNat ≠ c.toNat := fun he ↦ h (UInt8.toNat_inj.mp he)
  exact Nat.pos_of_ne_zero fun he ↦ this he.symm

/-- The zeros behind a string come before every byte it could have in their places. -/
theorem pad_lt_pad_iff (hs : 0 ∉ s) (ht : 0 ∉ t) (hslen : s.length ≤ size) (htlen : t.length ≤ size) :
    pad size s < pad size t ↔ s < t := by
  induction s generalizing t size with
  | nil =>
    match t, size with
    | [], size => exact iff_of_false (List.lt_irrefl _) (List.lt_irrefl _)
    | d :: t, size + 1 =>
      have hd : 0 < d := zero_lt_of_ne (List.ne_of_not_mem_cons ht)
      exact iff_of_true (List.cons_lt_cons_iff.mpr (.inl hd)) (List.nil_lt_cons d t)
  | cons c s ih =>
    rw [List.mem_cons, not_or] at hs
    obtain ⟨hc, hs⟩ := hs
    match t, size with
    | [], size + 1 =>
      refine iff_of_false (fun h ↦ ?_) (List.not_lt_nil _)
      rw [pad_cons] at h
      rcases List.cons_lt_cons_iff.mp h with h | ⟨h, -⟩
      · exact absurd (UInt8.lt_iff_toNat_lt.mp h) (Nat.not_lt_zero _)
      · exact hc h.symm
    | d :: t, size + 1 =>
      rw [pad_cons, pad_cons, List.cons_lt_cons_iff, List.cons_lt_cons_iff,
        ih hs (List.not_mem_of_not_mem_cons ht) (Nat.le_of_succ_le_succ hslen) (Nat.le_of_succ_le_succ htlen)]

end Pad

section Embedding

variable {native : Endian} {size : ℕ} {s t : List UInt8}

theorem repr_nativeToBig [LawfulStorage S size] (d : S) : Storage.repr native (Storage.nativeToBig native d) = Storage.repr .big d := by
  cases native with
  | little => exact (LawfulStorage.repr_endianReverse d).1
  | big => rfl

theorem repr_bigToNative [LawfulStorage S size] (d : S) : Storage.repr .big (Storage.bigToNative native d) = Storage.repr native d := by
  cases native with
  | little => exact (LawfulStorage.repr_endianReverse d).2
  | big => rfl

variable [LawfulStorage S size]

/-- The storage holds the bytes of the string, the first one as the most significant. -/
theorem repr_ofString (h : s.length ≤ size) :
    Storage.repr .big (ofString native s : FixedString S).data = pad size s := by
  have hlen : (pad size s).length = size := by
    rw [pad, List.length_append, List.length_replicate]
    omega
  unfold ofString
  simp only [LawfulStorage.repr_zero, List.length_replicate, if_pos h, List.drop_replicate]
  exact (repr_bigToNative _).trans (LawfulStorage.repr_ofRepr native _ hlen)

theorem asString_ofString (h : s.length ≤ size) (hs : 0 ∉ s) :
    asString native (ofString native s : FixedString S) = s := by
  rw [asString, repr_nativeToBig, repr_ofString h, takeWhile_pad hs]

theorem lt_ofString_iff (hslen : s.length ≤ size) (htlen : t.length ≤ size) (hs : 0 ∉ s) (ht : 0 ∉ t) :
    lt (ofString native s : FixedString S) (ofString native t) = true ↔ s < t := by
  rw [lt, LawfulStorage.lt_iff, repr_ofString hslen, repr_ofString htlen, pad_lt_pad_iff hs ht hslen htlen]

/-- The strings without a zero that fit in are kept as they are, each in a value of its own, and the
comparison of the values is the one of their bytes. -/
structure Embeds (S : Type) [Storage S] (native : Endian) (size : ℕ) : Prop where
  asString_ofString : ∀ s, s.length ≤ size → 0 ∉ s → asString native (ofString native s : FixedString S) = s
  injective : ∀ s t, s.length ≤ size → t.length ≤ size → 0 ∉ s → 0 ∉ t →
    (ofString native s : FixedString S) = ofString native t → s = t
  lt_iff : ∀ s t, s.length ≤ size → t.length ≤ size → 0 ∉ s → 0 ∉ t →
    (lt (ofString native s : FixedString S) (ofString native t) = true ↔ s < t)
  pairwise_iff : ∀ names : List (List UInt8), (∀ s ∈ names, s.length ≤ size ∧ 0 ∉ s) →
    ((names.map (ofString native (S := S))).Pairwise (fun a b ↦ lt a b = true) ↔ names.Pairwise (· < ·))

theorem embeds (S : Type) [Storage S] (native : Endian) {size : ℕ} [LawfulStorage S size] : Embeds S native size where
  asString_ofString _ hlen hs := asString_ofString hlen hs
  injective s t hslen htlen hs ht h := by
    have hread : asString native (ofString native s : FixedString S) = s := asString_ofString hslen hs
    rw [← hread, h, asString_ofString htlen ht]
  lt_iff _ _ hslen htlen hs ht := lt_ofString_iff hslen htlen hs ht
  pairwise_iff names hnames := by
    rw [List.pairwise_map]
    refine List.Pairwise.iff_of_mem fun {s t} hs ht ↦ ?_
    exact lt_ofString_iff (hnames s hs).1 (hnames t ht).1 (hnames s hs).2 (hnames t ht).2

/-- The storage types of the three sizes. -/
theorem fixedString_embeds (U : Type) [Uint128 U] [LawfulUint128 U] (native : Endian) :
    Embeds U native 16 ∧ Embeds (ErPair U UInt64) native 24 ∧ Embeds (ErPair U U) native 32 :=
  ⟨embeds U native, embeds (ErPair U UInt64) native, embeds (ErPair U U) native⟩

end Embedding

section Words

/-- Two words one behind the other. -/
structure TwoWords where
  hi : UInt64
  lo : UInt64

instance : Uint128 TwoWords where
  uint128 := TwoWords.mk
  hi := TwoWords.hi
  lo := TwoWords.lo
  zero := ⟨0, 0⟩
  repr native u := Storage.repr native u.hi ++ Storage.repr native u.lo
  ofRepr native bs := ⟨Storage.ofRepr native (bs.take 8), Storage.ofRepr native (bs.drop 8)⟩
  lt u v := u.hi < v.hi || (u.hi == v.hi && u.lo < v.lo)

instance : LawfulUint128 TwoWords where
  hi_uint128 _ _ := rfl
  lo_uint128 _ _ := rfl
  ext u v hhi hlo := by cases u; cases v; cases hhi; cases hlo; rfl
  hi_zero := rfl
  lo_zero := rfl
  repr_eq _ _ := rfl
  repr_ofRepr native bs h := by
    change Storage.repr native (Storage.ofRepr native (bs.take 8) : UInt64) ++
      Storage.repr native (Storage.ofRepr native (bs.drop 8) : UInt64) = bs
    rw [LawfulStorage.repr_ofRepr native _ (List.length_take_of_le (by omega)),
      LawfulStorage.repr_ofRepr native _ (by rw [List.length_drop, h]), List.take_append_drop]
  lt_iff u v := by simp [Uint128.lt, Uint128.hi, Uint128.lo]

theorem fixedString_embeds_twoWords :
    Embeds TwoWords .little 16 ∧ Embeds (ErPair TwoWords UInt64) .little 24 ∧
      Embeds (ErPair TwoWords TwoWords) .little 32 :=
  fixedString_embeds TwoWords .little

-- the order of the words alone would be the other one
example : (ofString .little "ba".toUTF8.data.toList : FixedString TwoWords).data.hi = 0x6261000000000000 ∧
    lt (ofString .little "ab".toUTF8.data.toList : FixedString TwoWords)
      (ofString .little "ba".toUTF8.data.toList) = true := by decide

end Words

end FixedString

end Taiyi.Protocol
