import Taiyi.BlockLog.Files

set_option autoImplicit false

namespace Taiyi.BlockLog

open Library

variable {Block : Type} {c : Blocks Block} {blocks ys : List Block} {b : Block} {log log' : Log Block}
  {m n : ℕ}

section Words

theorem readLastWord_append (bs : Bytes) (h : n < 2 ^ 64) : readLastWord (bs ++ word 8 n) = .ok n := by
  have hlen : (bs ++ word 8 n).length = bs.length + 8 := by rw [List.length_append, length_word]
  rw [readLastWord, hlen, if_neg (by omega), Nat.add_sub_cancel, List.drop_left, ofWord_word_of_lt h]

theorem trailed_concat : c.trailed 0 (ys ++ [b]) =
    c.trailed 0 ys ++ c.record (c.trailed 0 ys).length b := by
  rw [Codec.trailed_append, Nat.zero_add, Codec.trailed, Codec.trailed, List.append_nil]

theorem index_concat : index (c.starts 0 (ys ++ [b])) =
    index (c.starts 0 ys) ++ word 8 (c.trailed 0 ys).length := by
  rw [Codec.starts_append, Nat.zero_add, Codec.starts, Codec.starts, index_append, index_cons,
    index_nil, List.append_nil]

end Words

section Append

/-- What the files hold after appending the blocks to an empty log. -/
structure Written (c : Blocks Block) (blocks : List Block) (log : Log Block) : Prop where
  head : log.head = blocks.getLast?
  blockFile : log.blockFile = c.trailed 0 blocks
  indexFile : log.indexFile = index (c.starts 0 blocks)
  size : log.blockFile.length ≤ maxOffset
  numbers : ∀ i b, blocks[i]? = some b → i < 2 ^ 32 ∧ c.blockNum b = UInt32.ofNat (i + 1)

theorem written_empty : Written c [] {} :=
  ⟨rfl, rfl, rfl, Nat.zero_le _, fun _ _ h ↦ nomatch h⟩

theorem Written.append (h : Written c ys log) (happend : log.append c b = .ok log') :
    Written c (ys ++ [b]) log' := by
  unfold Log.append at happend
  dsimp only at happend
  split at happend
  · cases happend
  · next hpos =>
    split at happend
    · cases happend
    · next hsize =>
      cases happend
      have hlen : ys.length = (c.blockNum b - 1).toNat := by
        rw [h.indexFile, length_index, Codec.length_starts] at hpos
        omega
      refine ⟨List.getLast?_concat.symm, ?_, ?_, ?_, fun i b' hb ↦ ?_⟩
      · rw [trailed_concat, ← h.blockFile]
      · rw [index_concat, ← h.blockFile, ← h.indexFile]
      · rw [List.length_append]
        omega
      · rcases Nat.lt_or_ge i ys.length with hi | hi
        · rw [List.getElem?_append_left hi] at hb
          exact h.numbers i b' hb
        · rw [List.getElem?_append_right hi, List.getElem?_singleton] at hb
          split at hb
          · next hzero =>
            cases hb
            have heq : i = (c.blockNum b - 1).toNat := by omega
            refine ⟨heq ▸ UInt32.toNat_lt _, ?_⟩
            rw [heq, UInt32.ofNat_add, UInt32.ofNat_toNat]
            exact (UInt32.sub_add_cancel _ _).symm
          · cases hb

theorem written_of_appendAll (h : Log.appendAll c {} blocks = .ok log) : Written c blocks log := by
  have hrun (xs ys : List Block) (l : Log Block) (hl : Written c ys l)
      (hxs : l.appendAll c xs = .ok log) : Written c (ys ++ xs) log := by
    induction xs generalizing ys l with
    | nil =>
      cases hxs
      rw [List.append_nil]
      exact hl
    | cons x xs ih =>
      rw [Log.appendAll, List.foldlM_cons] at hxs
      cases hstep : l.append c x with
      | error e =>
        rw [hstep] at hxs
        cases hxs
      | ok l' =>
        rw [hstep] at hxs
        have := ih (ys ++ [x]) l' (hl.append hstep) hxs
        rwa [List.append_assoc] at this
  exact hrun blocks [] {} written_empty h

end Append

section Construct

theorem constructLoop_record {endPos p q : ℕ} {rest out : Bytes} (hq : q < endPos) (hp : p < 2 ^ 64) :
    constructLoop c endPos (c.record p b ++ rest) q out =
      constructLoop c endPos rest p (out ++ word 8 p) := by
  have hunpack : c.unpack (c.record p b ++ rest) = some (b, word 8 p ++ rest) := by
    rw [Codec.record, List.append_assoc, c.unpack_pack]
  have hlen : (word 8 p).length = 8 := length_word 8 p
  rw [constructLoop, if_pos hq]
  split
  · next hnone =>
    rw [hunpack] at hnone
    cases hnone
  · next hsome =>
    rw [hunpack] at hsome
    cases hsome
    rw [dif_neg (by rw [List.length_append, hlen]; omega), List.take_left' hlen,
      List.drop_left' hlen, ofWord_word_of_lt hp]

/-- The loop reads on to the last record, whose place ends it. -/
theorem constructLoop_eq {p q : ℕ} {out : Bytes} (hq : q < p + (c.trailed p ys).length)
    (hend : p + (c.trailed p ys).length < 2 ^ 64) :
    constructLoop c (p + (c.trailed p ys).length) (c.trailed p (ys ++ [b])) q out =
      .ok (out ++ index (c.starts p (ys ++ [b]))) := by
  induction ys generalizing p q out with
  | nil =>
    rw [Codec.trailed, List.length_nil, Nat.add_zero] at hq hend ⊢
    rw [List.nil_append, Codec.trailed, constructLoop_record hq hend, constructLoop,
      if_neg (lt_irrefl p), Codec.starts, Codec.starts, index_cons, index_nil,
      List.append_nil]
  | cons y ys ih =>
    have hlen : (c.record p y).length = (c.pack y).length + 8 := c.length_record
    have hend' : p + (c.trailed p (y :: ys)).length = p + (c.record p y).length +
        (c.trailed (p + (c.record p y).length) ys).length := by
      rw [Codec.trailed, List.length_append, Nat.add_assoc]
    rw [hend'] at hq hend ⊢
    rw [List.cons_append, Codec.trailed, constructLoop_record hq (by omega),
      ih (by omega) hend, Codec.starts, index_cons, List.append_assoc]

theorem constructIndex_eq (h : Written c (ys ++ [b]) log) (hys : ys ≠ []) :
    constructIndex c log.blockFile = .ok log.indexFile := by
  have hsize := h.size
  rw [h.blockFile, trailed_concat, List.length_append, maxOffset] at hsize
  have hpos : 0 < (c.trailed 0 ys).length := by
    obtain ⟨y, ys, rfl⟩ := List.exists_cons_of_ne_nil hys
    rw [Codec.trailed, List.length_append, Codec.length_record]
    omega
  have hloop : constructLoop c (0 + (c.trailed 0 ys).length) (c.trailed 0 (ys ++ [b])) 0 [] =
      .ok ([] ++ index (c.starts 0 (ys ++ [b]))) := constructLoop_eq (by omega) (by omega)
  rw [Nat.zero_add, List.nil_append, ← h.blockFile, ← h.indexFile] at hloop
  rw [constructIndex, h.blockFile, trailed_concat, Codec.record, ← List.append_assoc,
    readLastWord_append _ (by omega), List.append_assoc, ← Codec.record, ← trailed_concat, ← h.blockFile]
  exact hloop

/-- The place of a single block is 0, which ends the loop before it begins. -/
theorem constructIndex_single (h : Written c [b] log) : constructIndex c log.blockFile = .ok [] := by
  have hfile : log.blockFile = c.pack b ++ word 8 0 := by
    rw [h.blockFile, Codec.trailed, Codec.trailed, Codec.record, List.append_nil]
  rw [constructIndex, hfile, readLastWord_append _ (by decide)]
  exact (constructLoop.eq_def c 0 _ 0 []).trans (if_neg (lt_irrefl 0))

end Construct

section Read

theorem readLastWord_blockFile (h : Written c (ys ++ [b]) log) :
    readLastWord log.blockFile = .ok (c.trailed 0 ys).length := by
  have hsize := h.size
  rw [h.blockFile, trailed_concat, List.length_append, maxOffset] at hsize
  rw [h.blockFile, trailed_concat, Codec.record, ← List.append_assoc,
    readLastWord_append _ (by omega)]

theorem readBlockHelper_starts (h : Written c blocks log) {i : ℕ}
    (hn : (c.starts 0 blocks)[i]? = some n) :
    ∃ b next, blocks[i]? = some b ∧ readBlockHelper c log.blockFile n = .ok (b, next) := by
  obtain ⟨b, rest, hb, hunpack⟩ := Codec.unpack_starts hn
  exact ⟨b, (c.trailed 0 blocks).length - rest.length + 8, hb, by
    rw [readBlockHelper, h.blockFile, hunpack]⟩

theorem readHead_eq (h : Written c (ys ++ [b]) log) : readHead c log.blockFile = .ok b := by
  have hn : (c.starts 0 (ys ++ [b]))[ys.length]? = some (c.trailed 0 ys).length := by
    rw [Codec.starts_append, List.getElem?_append_right (by simp)]
    simp [Codec.starts]
  obtain ⟨b', next, hb, hread⟩ := readBlockHelper_starts h hn
  rw [List.getElem?_concat_length] at hb
  cases hb
  rw [readHead, readLastWord_blockFile h]
  change (readBlockHelper c log.blockFile _ >>= _) = _
  rw [hread]
  rfl

theorem toNat_ofNat_succ_sub {i : ℕ} (hi : i + 1 < 2 ^ 32) :
    (UInt32.ofNat (i + 1)).toNat = i + 1 ∧ (UInt32.ofNat (i + 1) - 1).toNat = i := by
  refine ⟨UInt32.toNat_ofNat_of_lt' hi, ?_⟩
  rw [UInt32.ofNat_add, show UInt32.ofNat 1 = 1 from rfl, UInt32.add_sub_cancel]
  exact UInt32.toNat_ofNat_of_lt' (Nat.lt_of_succ_lt hi)

theorem getBlockPos_eq (h : Written c blocks log) (hlt : blocks.length < 2 ^ 32) {i : ℕ}
    (hn : (c.starts 0 blocks)[i]? = some n) (hmax : n < 2 ^ 64) :
    log.getBlockPos c (UInt32.ofNat (i + 1)) = .ok n := by
  have hi : i < blocks.length := by
    have := (List.getElem?_eq_some_iff.mp hn).1
    rwa [Codec.length_starts] at this
  have hne : blocks ≠ [] := List.ne_nil_of_length_pos (by omega)
  have hlast : blocks[blocks.length - 1]? = some (blocks.getLast hne) := by
    rw [← List.getLast?_eq_getElem?, List.getLast?_eq_some_getLast hne]
  have hnum := (h.numbers _ _ hlast).2
  rw [Nat.sub_add_cancel (by omega)] at hnum
  obtain ⟨htoNat, hsub⟩ := toNat_ofNat_succ_sub (i := i) (by omega)
  have hrange : UInt32.ofNat (i + 1) ≤ UInt32.ofNat blocks.length ∧ 0 < UInt32.ofNat (i + 1) := by
    rw [UInt32.le_iff_toNat_le, UInt32.lt_iff_toNat_lt, htoNat, UInt32.toNat_ofNat_of_lt' hlt]
    exact ⟨hi, Nat.succ_pos i⟩
  have hword := index_word hn
  have hlen : 8 ≤ ((index (c.starts 0 blocks)).drop (8 * i)).length := by
    rw [List.length_drop, length_index, Codec.length_starts]
    omega
  rw [Log.getBlockPos, h.head, List.getLast?_eq_some_getLast hne]
  dsimp only
  rw [hnum, if_neg (not_not.mpr hrange), hsub, h.indexFile, readWord, if_neg (by omega), hword]
  exact congrArg Except.ok (ofWord_word_of_lt hmax)

theorem readBlockByNum_eq (h : Written c blocks log) (hlt : blocks.length < 2 ^ 32) {i : ℕ}
    (hb : blocks[i]? = some b) : log.readBlockByNum c (UInt32.ofNat (i + 1)) = .ok (some b) := by
  have hi : i < (c.starts 0 blocks).length := by
    rw [Codec.length_starts]
    exact (List.getElem?_eq_some_iff.mp hb).1
  have hn : (c.starts 0 blocks)[i]? = some (c.starts 0 blocks)[i] := List.getElem?_eq_getElem hi
  have hle := (Codec.le_of_mem_starts (List.getElem_mem hi)).2
  have hsize := h.size
  rw [h.blockFile, maxOffset] at hsize
  obtain ⟨b', next, hb', hread⟩ := readBlockHelper_starts h hn
  rw [hb] at hb'
  cases hb'
  have hne : (c.starts 0 blocks)[i] ≠ Log.npos := by
    rw [Log.npos]
    omega
  rw [Log.readBlockByNum, getBlockPos_eq h hlt hn (by omega)]
  change (if _ then _ else _) = _
  rw [if_pos hne, hread]
  exact if_neg (not_not.mpr (h.numbers i b hb).2)

end Read

section Reopen

/-- Opening the log with an index of which only the first bytes are left. -/
structure Recovered (c : Blocks Block) (blocks : List Block) (log : Log Block) (m : ℕ) (log' : Log Block) :
    Prop where
  opens : openLog c log.blockFile (log.indexFile.take m) = .ok log'
  indexFile : log'.indexFile = log.indexFile
  readBlockByNum : ∀ i b, blocks[i]? = some b →
    log'.readBlockByNum c (UInt32.ofNat (i + 1)) = .ok (some b)
  readHead : ∃ b, blocks.getLast? = some b ∧ readHead c log'.blockFile = .ok b

/-- The index is taken for complete only by its last word. -/
def Noticed (log : Log Block) (m : ℕ) : Prop :=
  m = 0 ∨ 8 ≤ m ∧ readLastWord (log.indexFile.take m) ≠ readLastWord log.blockFile

theorem readLastWord_of_le {file : Bytes} (h : 8 ≤ file.length) :
    readLastWord file = .ok (ofWord (file.drop (file.length - 8))) := if_neg (by omega)

theorem blockFile_ne (h : Written c (ys ++ [b]) log) : log.blockFile.length ≠ 0 := by
  rw [h.blockFile, trailed_concat, List.length_append, Codec.length_record]
  omega

theorem openLog_noticed (h : Written c (ys ++ [b]) log) (hm : m < log.indexFile.length)
    (hnoticed : Noticed log m) :
    openLog c log.blockFile (log.indexFile.take m) =
      (constructIndex c log.blockFile).map fun file ↦ ⟨some b, log.blockFile, file⟩ := by
  rw [openLog, if_pos (blockFile_ne h), readHead_eq h]
  have hlen : (log.indexFile.take m).length = m := List.length_take_of_le hm.le
  rcases hnoticed with rfl | ⟨hle, hne⟩
  · cases constructIndex c log.blockFile <;> rfl
  · rw [readLastWord_blockFile h, readLastWord_of_le (hlen.symm ▸ hle)] at hne ⊢
    change (if _ then (if _ then _ else if _ then _ else _) else _) = _
    rw [if_pos (by omega)]
    rcases Nat.lt_trichotomy (c.trailed 0 ys).length
      (ofWord ((log.indexFile.take m).drop ((log.indexFile.take m).length - 8))) with hlt | heq | hgt
    · rw [if_pos hlt]
      cases constructIndex c log.blockFile <;> rfl
    · exact absurd (congrArg Except.ok heq.symm) hne
    · rw [if_neg (by omega), if_pos hgt]
      cases constructIndex c log.blockFile <;> rfl

/-- An index that is not noticed to be cut fails to open, or stays as it is. -/
theorem openLog_unnoticed (h : Written c (ys ++ [b]) log) (hm : m < log.indexFile.length)
    (hnoticed : ¬Noticed log m) (hopen : openLog c log.blockFile (log.indexFile.take m) = .ok log') :
    log'.indexFile = log.indexFile.take m := by
  obtain ⟨hzero, hword⟩ := not_or.mp hnoticed
  have hlen : (log.indexFile.take m).length = m := List.length_take_of_le hm.le
  rw [openLog, if_pos (blockFile_ne h), readHead_eq h] at hopen
  change (if _ then _ else _) = _ at hopen
  rw [if_pos (by omega), readLastWord_blockFile h] at hopen
  rcases Nat.lt_or_ge m 8 with hlt | hge
  · rw [readLastWord, if_pos (by omega)] at hopen
    cases hopen
  · have heq := not_not.mp fun hne ↦ hword ⟨hge, hne⟩
    rw [readLastWord_blockFile h] at heq
    rw [heq] at hopen
    change (if _ then _ else if _ then _ else _) = _ at hopen
    rw [if_neg (lt_irrefl _), if_neg (lt_irrefl _)] at hopen
    cases hopen
    rfl

theorem not_recovered_single (h : Written c [b] log) (hm : m < log.indexFile.length)
    (hopen : openLog c log.blockFile (log.indexFile.take m) = .ok log') :
    log'.indexFile ≠ log.indexFile := by
  intro hindex
  have hconcat : Written c ([] ++ [b]) log := h
  by_cases hnoticed : Noticed log m
  · rw [openLog_noticed hconcat hm hnoticed, constructIndex_single h] at hopen
    cases hopen
    rw [← hindex] at hm
    cases hm
  · rw [openLog_unnoticed hconcat hm hnoticed hopen] at hindex
    have hlen := congrArg List.length hindex
    rw [List.length_take_of_le hm.le] at hlen
    omega

/-- The number of the last of 2^32 blocks is 0, and no block is looked up. -/
theorem readBlockByNum_wrapped (h : c.blockNum b = 0) (hhead : log.head = some b) (num : UInt32) :
    log.readBlockByNum c num = .ok none := by
  have hrange : ¬(num ≤ c.blockNum b ∧ 0 < num) := by
    rw [h, UInt32.le_iff_toNat_le, UInt32.lt_iff_toNat_lt]
    omega
  rw [Log.readBlockByNum, Log.getBlockPos, hhead]
  dsimp only
  rw [if_pos hrange]
  rfl

/-- The index is built anew as it was where the loss is noticed, except for a single block. -/
theorem recovered_iff (h : Log.appendAll c {} blocks = .ok log) (hne : blocks ≠ [])
    (hm : m < log.indexFile.length) :
    (∃ log', Recovered c blocks log m log') ↔
      2 ≤ blocks.length ∧ blocks.length < 2 ^ 32 ∧ Noticed log m := by
  have hwritten := written_of_appendAll h
  obtain ⟨ys, b, rfl⟩ := (List.eq_nil_or_concat blocks).resolve_left hne
  rw [List.concat_eq_append] at hwritten ⊢
  rw [List.length_append, List.length_singleton]
  constructor
  · rintro ⟨log', hrec⟩
    have hys : ys ≠ [] := by
      rintro rfl
      exact not_recovered_single hwritten hm hrec.opens hrec.indexFile
    have hpos := List.length_pos_of_ne_nil hys
    have hnoticed : Noticed log m := by
      by_contra hnot
      have hlen := congrArg List.length (openLog_unnoticed hwritten hm hnot hrec.opens)
      rw [hrec.indexFile, List.length_take_of_le hm.le] at hlen
      omega
    refine ⟨by omega, ?_, hnoticed⟩
    obtain ⟨hle, hnum⟩ := hwritten.numbers ys.length b List.getElem?_concat_length
    by_contra hwrap
    have heq : ys.length + 1 = 2 ^ 32 := by omega
    have hopen := hrec.opens
    rw [openLog_noticed hwritten hm hnoticed, constructIndex_eq hwritten hys] at hopen
    cases hopen
    have hread := hrec.readBlockByNum 0 _ (List.getElem?_eq_getElem (by simp))
    rw [readBlockByNum_wrapped (by rw [hnum, heq]; rfl) rfl] at hread
    cases hread
  · rintro ⟨hlen, hlt, hnoticed⟩
    have hys : ys ≠ [] := List.ne_nil_of_length_pos (by omega)
    have hopen := openLog_noticed hwritten hm hnoticed
    rw [constructIndex_eq hwritten hys] at hopen
    have hlog : log = ⟨some b, log.blockFile, log.indexFile⟩ := by
      have hhead := hwritten.head
      rw [List.getLast?_concat] at hhead
      rw [← hhead]
    have hlength : (ys ++ [b]).length < 2 ^ 32 := by
      rw [List.length_append, List.length_singleton]
      exact hlt
    exact ⟨log, hopen.trans (congrArg Except.ok hlog.symm), rfl,
      fun i b' hb ↦ readBlockByNum_eq hwritten hlength hb, b, List.getLast?_concat,
      readHead_eq hwritten⟩

end Reopen

section Bare

/-- A block without transactions, and with zeros but for the number of its predecessor. -/
structure BareBlock where
  previousNum : UInt32
  deriving DecidableEq

/-- The id of the predecessor, of 20 bytes, begins with its number, the first byte the greatest. -/
def BareBlock.pack (b : BareBlock) : Bytes :=
  (word 4 b.previousNum.toNat).reverse ++ List.replicate 108 0

def BareBlock.unpack (bs : Bytes) : Option (BareBlock × Bytes) :=
  if 112 ≤ bs.length ∧ (bs.take 112).drop 4 = List.replicate 108 0 then
    some (⟨UInt32.ofNat (ofWord (bs.take 4).reverse)⟩, bs.drop 112)
  else none

def bareBlocks : Blocks BareBlock where
  pack := BareBlock.pack
  unpack := BareBlock.unpack
  unpack_pack b rest := by
    have hword : (word 4 b.previousNum.toNat).reverse.length = 4 := by rw [List.length_reverse, length_word]
    have hlen : b.pack.length = 112 := by
      rw [BareBlock.pack, List.length_append, hword, List.length_replicate]
    have hfour : (b.pack ++ rest).take 4 = (word 4 b.previousNum.toNat).reverse := by
      rw [BareBlock.pack, List.append_assoc, List.take_left' hword]
    have hzeros : ((b.pack ++ rest).take 112).drop 4 = List.replicate 108 0 := by
      rw [List.take_left' hlen, BareBlock.pack, List.drop_left' hword]
    rw [BareBlock.unpack, if_pos ⟨by rw [List.length_append, hlen]; omega, hzeros⟩, hfour,
      List.reverse_reverse, ofWord_word_of_lt b.previousNum.toNat_lt, UInt32.ofNat_toNat,
      List.drop_left' hlen]
  consumes bs b rest h := by
    unfold BareBlock.unpack at h
    split at h
    · cases h
      rw [List.length_drop]
      omega
    · cases h
  blockNum b := b.previousNum + 1

theorem exists_of_toBool {ε α : Type} {e : Except ε α} (h : e.toBool = true) : ∃ a, e = .ok a := by
  cases e with
  | error => cases h
  | ok a => exact ⟨a, rfl⟩

/-- Two blocks, and the index gone. -/
theorem recovered_two : ∃ log log', Log.appendAll bareBlocks {} [⟨0⟩, ⟨1⟩] = .ok log ∧
    Recovered bareBlocks [⟨0⟩, ⟨1⟩] log 0 log' := by
  obtain ⟨log, h⟩ := exists_of_toBool (e := Log.appendAll bareBlocks {} [⟨0⟩, ⟨1⟩]) (by decide +kernel)
  have hm : 0 < log.indexFile.length := by
    rw [(written_of_appendAll h).indexFile, length_index, Codec.length_starts]
    decide
  obtain ⟨log', hrec⟩ := (recovered_iff h (List.cons_ne_nil _ _) hm).mpr ⟨by decide, by decide, .inl rfl⟩
  exact ⟨log, log', h, hrec⟩

/-- With a single block, an index that is gone stays empty. -/
theorem single_block_not_recovered : ¬∀ (blocks : List BareBlock) (log : Log BareBlock) (m : ℕ),
    Log.appendAll bareBlocks {} blocks = .ok log → blocks ≠ [] → m < log.indexFile.length →
      ∃ log', Recovered bareBlocks blocks log m log' := by
  intro hall
  obtain ⟨log, h⟩ := exists_of_toBool (e := Log.appendAll bareBlocks {} [⟨0⟩]) (by decide +kernel)
  have hwritten := written_of_appendAll h
  have hm : 0 < log.indexFile.length := by
    rw [hwritten.indexFile, length_index, Codec.length_starts]
    decide
  obtain ⟨log', hrec⟩ := hall [⟨0⟩] log 0 h (List.cons_ne_nil _ _) hm
  exact not_recovered_single hwritten hm hrec.opens hrec.indexFile

end Bare

end Taiyi.BlockLog
