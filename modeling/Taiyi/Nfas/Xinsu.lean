import Mathlib.Data.Finset.Dedup
import Taiyi.Library.Holders
import Taiyi.Nfas.Effects

set_option autoImplicit false

namespace Taiyi.Nfas

open Library

variable {s t u : State} {op : Op} {i id account owner : ℕ} {P : ℕ → Prop} {f : Nfa → Nfa}

section Xinsus

/-- The accounts whose votes are counted, apart from danuo. -/
def State.xinsus (s : State) : Finset ℕ :=
  (s.nfas.map Nfa.ownerAccount).toFinset.filter fun account ↦
    account ≠ danuoAccount ∧ s.isXinsu account = true

/-- The threshold of `filter_by_votes`. -/
def State.votesThreshold (s : State) (adoptedVotesThreshold : ℕ) : ℕ :=
  min s.xinsuCount adoptedVotesThreshold

/-- The owner of an NFA, if it is a mark. -/
def State.markOwner (s : State) (i : ℕ) : Option ℕ :=
  s.nfas[i]?.bind fun n ↦ if n.symbolId = xinsuMark then some n.ownerAccount else none

theorem markOwner_eq_some :
    s.markOwner i = some owner ↔ ∃ n, s.nfas[i]? = some n ∧ n.symbolId = xinsuMark ∧ n.ownerAccount = owner := by
  simp [State.markOwner, Option.bind_eq_some_iff]

theorem ownerOf_of_markOwner (h : s.markOwner i = some owner) : s.ownerOf i = some owner := by
  obtain ⟨n, hn, -, rfl⟩ := markOwner_eq_some.mp h
  rw [State.ownerOf, hn, Option.map_some]

theorem ownerOf_of_nfas (h : t.nfas = s.nfas) (i : ℕ) : t.ownerOf i = s.ownerOf i := by
  rw [State.ownerOf, State.ownerOf, h]

theorem isXinsu_iff : s.isXinsu account = true ↔ ∃ i, s.markOwner i = some account := by
  rw [State.isXinsu, hasNfaWithSymbol_iff]
  constructor
  · rintro ⟨n, hn, howner, hmark⟩
    obtain ⟨i, hi⟩ := List.mem_iff_getElem?.mp hn
    exact ⟨i, markOwner_eq_some.mpr ⟨n, hi, hmark, howner⟩⟩
  · rintro ⟨i, hi⟩
    obtain ⟨n, hn, hmark, howner⟩ := markOwner_eq_some.mp hi
    exact ⟨n, List.mem_of_getElem? hn, howner, hmark⟩

theorem mem_xinsus : account ∈ s.xinsus ↔ account ≠ danuoAccount ∧ s.isXinsu account = true := by
  rw [State.xinsus, Finset.mem_filter, and_iff_right_iff_imp]
  rintro ⟨-, h⟩
  obtain ⟨n, hn, howner, -⟩ := hasNfaWithSymbol_iff.mp h
  exact List.mem_toFinset.mpr (List.mem_map.mpr ⟨n, hn, howner⟩)

theorem holders_xinsus (s : State) : Holders danuoAccount s.markOwner s.xinsus := fun account ↦ by
  rw [mem_xinsus, isXinsu_iff]

theorem xinsus_congr (h : ∀ account, t.isXinsu account = s.isXinsu account) : t.xinsus = s.xinsus := by
  ext account
  rw [mem_xinsus, mem_xinsus, h]

theorem xinsus_of_nfas (h : t.nfas = s.nfas) : t.xinsus = s.xinsus :=
  xinsus_congr fun account ↦ by rw [State.isXinsu, State.isXinsu, State.hasNfaWithSymbol, h]; rfl

theorem xinsus_eq (h : ∀ i, t.markOwner i = s.markOwner i) : t.xinsus = s.xinsus :=
  xinsus_congr fun account ↦ Bool.eq_iff_iff.mpr (by rw [isXinsu_iff, isXinsu_iff, funext h])

/-- How many marks there are. -/
def State.marks (s : State) : ℕ := (s.nfas.map Nfa.symbolId).count xinsuMark

theorem card_xinsus_le (s : State) : s.xinsus.card ≤ s.marks := by
  have hsubset : s.xinsus ⊆
      ((s.nfas.filter (·.symbolId = xinsuMark)).map Nfa.ownerAccount).toFinset := fun account h ↦ by
    obtain ⟨n, hn, howner, hmark⟩ := hasNfaWithSymbol_iff.mp (mem_xinsus.mp h).2
    exact List.mem_toFinset.mpr
      (List.mem_map.mpr ⟨n, List.mem_filter.mpr ⟨hn, decide_eq_true hmark⟩, howner⟩)
  calc s.xinsus.card ≤ _ := Finset.card_le_card hsubset
    _ ≤ _ := List.toFinset_card_le _
    _ = s.marks := by
      rw [List.length_map, State.marks, List.count, List.countP_map, List.countP_eq_length_filter]
      rfl

end Xinsus

section Moves

theorem markOwner_modify (ht : t.nfas = (s.modifyNfa id f).nfas)
    (hsymbol : ∀ n, (f n).symbolId = n.symbolId) (howner : ∀ n, (f n).ownerAccount = n.ownerAccount)
    (i : ℕ) : t.markOwner i = s.markOwner i := by
  rw [State.markOwner, State.markOwner, ht, nfas_modifyNfa]
  split
  · rw [Option.bind_map]
    exact congrArg _ (funext fun n ↦ by rw [Function.comp_apply, hsymbol, howner])
  · rfl

/-- The marks among NFAs that get a new owner move to it. -/
theorem markOwner_map (hsymbol : ∀ n, (f n).symbolId = n.symbolId) (howner : ∀ n, (f n).ownerAccount = owner)
    (ht : t.nfas[i]? = s.nfas[i]?.map f) : t.markOwner i = (s.markOwner i).map fun _ ↦ owner := by
  rw [State.markOwner, State.markOwner, ht, Option.bind_map, Option.map_bind]
  refine congrArg _ (funext fun n ↦ ?_)
  rw [Function.comp_apply, Function.comp_apply, hsymbol, howner]
  split <;> rfl

theorem moved_modify (ht : t.nfas = (s.modifyNfa id f).nfas) (hsymbol : ∀ n, (f n).symbolId = n.symbolId)
    (howner : ∀ n, (f n).ownerAccount = owner) : Moved (· = id) owner s.markOwner t.markOwner where
  moved i hi := markOwner_map hsymbol howner (by rw [ht, nfas_modifyNfa, if_pos hi.symm])
  kept i hi := by rw [State.markOwner, State.markOwner, ht, nfas_modifyNfa, if_neg (Ne.symm hi)]

theorem moved_reowned (h : Reowned P owner s t) : Moved P owner s.markOwner t.markOwner where
  moved i hi := markOwner_map (f := Nfa.setOwner owner) (fun _ ↦ rfl) (fun _ ↦ rfl) (h.moved i hi)
  kept i hi := by rw [State.markOwner, State.markOwner, h.kept i hi]

/-- A new mark of danuo, or of an account that has a mark, makes no new xinsu. -/
theorem xinsus_append {n : Nfa} (ht : t.nfas = s.nfas ++ [n])
    (hn : n.symbolId = xinsuMark → n.ownerAccount = danuoAccount ∨ s.isXinsu n.ownerAccount = true) :
    t.xinsus = s.xinsus := by
  ext account
  rw [mem_xinsus, mem_xinsus, and_congr_right_iff]
  intro hne
  rw [State.isXinsu, State.isXinsu, hasNfaWithSymbol_iff, hasNfaWithSymbol_iff, ht]
  constructor
  · rintro ⟨m, hm, howner, hmark⟩
    rcases List.mem_append.mp hm with hm | hm
    · exact ⟨m, hm, howner, hmark⟩
    · cases List.mem_singleton.mp hm
      rcases hn hmark with hdanuo | hx
      · exact absurd (howner.symm.trans hdanuo) hne
      · exact howner ▸ hasNfaWithSymbol_iff.mp hx
  · rintro ⟨m, hm, hcond⟩
    exact ⟨m, List.mem_append_left _ hm, hcond⟩

end Moves

section Regular

/-- The NFAs that a call gives to an account without changing the counter. -/
inductive Gives (s : State) : Op → (ℕ → Prop) → ℕ → Prop
  | actor {id a owner : ℕ} {rest : List (ℕ × Target)} (hs : s.creations = (id, .actor a) :: rest)
      (howner : s.ownerOf a = some owner) : Gives s .finish (· = id) owner
  | account {id account : ℕ} {rest : List (ℕ × Target)}
      (hs : s.creations = (id, .account account) :: rest) : Gives s .finish (· = id) account
  | transfer {sender receiver id : ℕ} :
      Gives s (.transferNfa sender receiver id) (fun i ↦ i = id ∨ s.Below id i) receiver
  | destroy {caller self : ℕ} : Gives s (.destroy caller self) (· = self) nullAccount

/-- What the calls leave unchecked about marks. Where they go to an account without the counter,
nobody gets the first mark or loses the last, or one account each; who creates a mark is danuo or
has one; a new mark goes to an account that still has none when the init function is done, and
takes no account's last; and a mark is revoked of an account that owns nothing else. -/
structure Regular (s : State) (op : Op) : Prop where
  gives : ∀ P receiver, Gives s op P receiver → Balanced danuoAccount s.markOwner P receiver
  creates : ∀ creator target, Creates s op creator xinsuMark target →
    creator = danuoAccount ∨ s.isXinsu creator = true
  grants : op = .finish → ∀ id receiver rest, s.creations = (id, .mark receiver) :: rest →
    receiver ≠ danuoAccount ∧ s.isXinsu receiver = false ∧
      ∀ account, ¬Loses danuoAccount s.markOwner (· = id) receiver account
  revokes : ∀ caller account, op = .revokeXinsu caller account →
    account ≠ danuoAccount ∧ (s.ownedBy account).length = 1

end Regular

section Marks

/-- The limit of the marks, and the marks that wait for their init function. -/
structure Limited (s : State) : Prop where
  symbol : ∃ y, s.symbols[xinsuMark]? = some y ∧ s.marks ≤ y.count ∧ y.count ≤ y.maxCount ∧
    y.maxCount = 10000
  waiting : ∀ id receiver, (id, .mark receiver) ∈ s.creations → s.markOwner id ≠ none

theorem marks_eq (hp : Persists s t) (hlen : t.nfas.length = s.nfas.length) : t.marks = s.marks := by
  have hmap : t.nfas.map Nfa.symbolId = s.nfas.map Nfa.symbolId := by
    refine List.ext_getElem? fun i ↦ ?_
    rw [List.getElem?_map, List.getElem?_map]
    cases hn : s.nfas[i]? with
    | none =>
      rw [List.getElem?_eq_none_iff, ← hlen, ← List.getElem?_eq_none_iff] at hn
      rw [hn]
    | some n =>
      obtain ⟨n', hn', hid⟩ := hp.nfas i n hn
      rw [hn', Option.map_some, Option.map_some, hid]
  rw [State.marks, State.marks, hmap]

theorem markOwner_ne_none (hp : Persists s t) (h : s.markOwner i ≠ none) : t.markOwner i ≠ none := by
  obtain ⟨owner, howner⟩ := Option.ne_none_iff_exists'.mp h
  obtain ⟨n, hn, hmark, -⟩ := markOwner_eq_some.mp howner
  obtain ⟨n', hn', hid⟩ := hp.nfas i n hn
  exact Option.ne_none_iff_exists'.mpr
    ⟨n'.ownerAccount, markOwner_eq_some.mpr ⟨n', hn', hid.trans hmark, rfl⟩⟩

theorem Limited.persist (h : Limited s) (hp : Persists s t) (hlen : t.nfas.length = s.nfas.length)
    (hcount : ∀ y, s.symbols[xinsuMark]? = some y →
      ∃ y', t.symbols[xinsuMark]? = some y' ∧ y'.count = y.count)
    (hcreations : ∀ c ∈ t.creations, c ∈ s.creations) : Limited t where
  symbol := by
    obtain ⟨y, hy, hmarks, hle, hmax⟩ := h.symbol
    obtain ⟨y', hy', hcount⟩ := hcount y hy
    obtain ⟨z, hz, -, hlimit, -⟩ := hp.symbols _ y hy
    cases hz.symm.trans hy'
    rw [← hcount] at hmarks hle
    exact ⟨y', hy', (marks_eq hp hlen).le.trans hmarks, hlimit.symm ▸ hle, hlimit.trans hmax⟩
  waiting id receiver hmem := markOwner_ne_none hp (h.waiting id receiver (hcreations _ hmem))

theorem Limited.of_symbols (h : Limited s) (hp : Persists s t) (hlen : t.nfas.length = s.nfas.length)
    (hsymbols : t.symbols = s.symbols) (hcreations : ∀ c ∈ t.creations, c ∈ s.creations) : Limited t :=
  h.persist hp hlen (fun y hy ↦ ⟨y, hsymbols ▸ hy, rfl⟩) hcreations

theorem Limited.modifySymbol {g : NfaSymbol → NfaSymbol} (h : Limited s)
    (hp : Persists s (s.modifySymbol id g)) (hg : ∀ y, (g y).count = y.count) :
    Limited (s.modifySymbol id g) := by
  refine h.persist hp rfl (fun y hy ↦ ?_) fun _ hc ↦ hc
  rw [State.modifySymbol, List.getElem?_modify, hy]
  split
  · exact ⟨g y, rfl, hg y⟩
  · exact ⟨y, rfl, rfl⟩

theorem marks_append {n : Nfa} (ht : t.nfas = s.nfas ++ [n]) :
    t.marks = s.marks + if n.symbolId = xinsuMark then 1 else 0 := by
  rw [State.marks, ht, List.map_append, List.count_append, List.map_singleton, List.count_singleton,
    State.marks]
  simp only [beq_iff_eq]

/-- Only a grant begins the creation of a mark for somebody. -/
theorem symbolId_of_mark {creator symbolId receiver : ℕ}
    (hby : Creates s op creator symbolId (.mark receiver)) : symbolId = xinsuMark := by
  cases hby
  rfl

theorem limited_create {creator symbolId : ℕ} {target : Target} {y : NfaSymbol} (h : Limited s)
    (hby : Creates s op creator symbolId target) (hy : s.symbols[symbolId]? = some y)
    (hcount : y.count < y.maxCount) :
    Limited { s.modifySymbol symbolId ({ · with count := y.count + 1 }) with
      nfas := s.nfas ++ [{ ownerAccount := creator, activeAccount := creator, symbolId }]
      creations := (s.nfas.length, target) :: s.creations } := by
  have hp := persists_effect (Effect.create hby hy hcount)
  refine ⟨?_, fun id receiver hmem ↦ ?_⟩
  · obtain ⟨z, hz, hmarks, hle, hmax⟩ := h.symbol
    change ∃ y', (s.symbols.modify symbolId _)[xinsuMark]? = some y' ∧ _
    rw [marks_append rfl, List.getElem?_modify, hz]
    split
    · next heq =>
      subst heq
      cases hz.symm.trans hy
      exact ⟨_, rfl, Nat.add_le_add_right hmarks 1, hcount, hmax⟩
    · exact ⟨z, rfl, hmarks, hle, hmax⟩
  · rcases List.mem_cons.mp hmem with heq | hmem
    · cases heq
      have hsymbol := symbolId_of_mark hby
      subst hsymbol
      exact Option.ne_none_iff_exists'.mpr
        ⟨creator, markOwner_eq_some.mpr ⟨_, List.getElem?_concat_length, rfl, rfl⟩⟩
    · exact markOwner_ne_none hp (h.waiting id receiver hmem)

theorem limited_effect (h : Limited s) (he : Effect s op t) : Limited t := by
  have hp := persists_effect he
  have hrest {c : ℕ × Target} {rest : List (ℕ × Target)} (hcr : s.creations = c :: rest) :
      ∀ d ∈ rest, d ∈ s.creations := fun d hd ↦ hcr ▸ List.mem_cons_of_mem c hd
  cases he with
  | createSymbol =>
    refine h.persist hp rfl (fun y hy ↦ ⟨y, ?_, rfl⟩) fun _ hc ↦ hc
    rw [List.getElem?_append_left (List.getElem?_eq_some_iff.mp hy).1, hy]
  | authority => exact h.modifySymbol hp fun _ ↦ rfl
  | authorityNfaSymbol => exact h.modifySymbol hp fun _ ↦ rfl
  | create hby hy hcount => exact limited_create h hby hy hcount
  | finishActor hcr => exact h.of_symbols hp length_modifyNfa rfl (hrest hcr)
  | finishAccount hcr => exact h.of_symbols hp length_modifyNfa rfl (hrest hcr)
  | finishMark hcr => exact h.of_symbols hp length_modifyNfa rfl (hrest hcr)
  | finishNewActor hcr => exact h.of_symbols hp length_modifyNfa rfl (hrest hcr)
  | finishNewZone hcr => exact h.of_symbols hp rfl rfl (hrest hcr)
  | abort hcr => exact h.of_symbols hp rfl rfl (hrest hcr)
  | transfer hn howner hparent hsbt ht =>
    exact h.of_symbols hp ht.length ht.symbols fun c hc ↦ ht.creations ▸ hc
  | approve => exact h.of_symbols hp length_modifyNfa rfl fun _ hc ↦ hc
  | attach => exact h.of_symbols hp length_modifyNfa rfl fun _ hc ↦ hc
  | remove => exact h.of_symbols hp length_modifyNfa rfl fun _ hc ↦ hc
  | destroy => exact h.of_symbols hp length_modifyNfa rfl fun _ hc ↦ hc
  | revoke hx ht => exact h.of_symbols hp ht.length ht.symbols fun c hc ↦ ht.creations ▸ hc

end Marks

section Booked

/-- The counter is the number of accounts with a mark, apart from danuo, and so is the threshold. -/
structure Booked (s : State) : Prop where
  count : s.xinsuCount = s.xinsus.card
  threshold : ∀ adoptedVotesThreshold,
    s.votesThreshold adoptedVotesThreshold = min s.xinsus.card adoptedVotesThreshold

/-- To revoke the mark of an account moves nothing else, and the counter is large enough. -/
def RevokesMarks (s : State) (account : ℕ) : Prop :=
  ∀ caller t, s.exec (.revokeXinsu caller account) = .ok t →
    (s.ownedBy account).length ≤ s.xinsuCount ∧ ∀ i, t.ownerOf i ≠ s.ownerOf i → s.markOwner i ≠ none

theorem count_congr (h : s.xinsuCount = s.xinsus.card) (hx : t.xinsus = s.xinsus)
    (hcount : t.xinsuCount = s.xinsuCount) : t.xinsuCount = t.xinsus.card := by
  rw [hcount, h, hx]

theorem count_balanced (h : s.xinsuCount = s.xinsus.card) (hm : Moved P owner s.markOwner t.markOwner)
    (hb : Balanced danuoAccount s.markOwner P owner) (hcount : t.xinsuCount = s.xinsuCount) :
    t.xinsuCount = t.xinsus.card := by
  rw [hcount, h, card_holders_balanced (holders_xinsus s) (holders_xinsus t) hm hb]

/-- A grant that comes to its end makes one more xinsu. -/
theorem granted_card {receiver : ℕ} (hm : Moved (· = id) receiver s.markOwner t.markOwner)
    (hmark : s.markOwner id ≠ none) (hne : receiver ≠ danuoAccount) (hx : s.isXinsu receiver = false)
    (hkeeps : ∀ a, ¬Loses danuoAccount s.markOwner (· = id) receiver a) :
    t.xinsus.card = s.xinsus.card + 1 := by
  refine card_holders_gains (holders_xinsus s) (holders_xinsus t) hm ⟨hne, fun i hi ↦ ?_, id, rfl, hmark⟩ hkeeps
  rw [isXinsu_iff.mpr ⟨i, hi⟩] at hx
  cases hx

/-- An account whose NFAs all go to danuo is no xinsu any more. -/
theorem revoked_card (hm : Moved (· ∈ s.ownedBy account) danuoAccount s.markOwner t.markOwner)
    (hne : account ≠ danuoAccount) (hx : s.isXinsu account = true) :
    t.xinsus.card + 1 = s.xinsus.card := by
  obtain ⟨m, hmark⟩ := isXinsu_iff.mp hx
  refine card_holders_loses (b := account) (holders_xinsus s) (holders_xinsus t) hm (fun h ↦ h.1 rfl)
    fun a ↦ ⟨?_, ?_⟩
  · rintro ⟨-, -, ⟨i, hi⟩, hall⟩
    have howned := mem_ownedBy.mp (hall i hi)
    rw [ownerOf_of_markOwner hi] at howned
    exact Option.some_inj.mp howned
  · rintro rfl
    exact ⟨hne, hne, ⟨m, hmark⟩, fun i hi ↦ mem_ownedBy.mpr (ownerOf_of_markOwner hi)⟩

theorem card_lt (h : Limited s) : s.xinsus.card ≤ 10000 := by
  obtain ⟨y, -, hmarks, hle, hmax⟩ := h.symbol
  exact (card_xinsus_le s).trans (hmarks.trans (hmax ▸ hle))

theorem count_granted (h : s.xinsuCount = s.xinsus.card) (hl : Limited s)
    (hcard : t.xinsus.card = s.xinsus.card + 1) (hu : u.xinsus = t.xinsus)
    (hcount : u.xinsuCount = (s.xinsuCount + 1) % 2 ^ 32) : u.xinsuCount = u.xinsus.card := by
  have hbound := card_lt hl
  rw [hcount, hu, hcard, h]
  exact Nat.mod_eq_of_lt (by omega)

theorem count_revoked {found : ℕ} (h : s.xinsuCount = s.xinsus.card) (hl : Limited s) (hone : found = 1)
    (hcard : t.xinsus.card + 1 = s.xinsus.card) (hu : u.xinsus = t.xinsus)
    (hcount : u.xinsuCount = (s.xinsuCount + 2 ^ 32 - found % 2 ^ 32) % 2 ^ 32) :
    u.xinsuCount = u.xinsus.card := by
  have hbound := card_lt hl
  rw [hcount, hu, hone, h]
  omega

theorem count_effect (h : s.xinsuCount = s.xinsus.card) (hl : Limited s) (he : Effect s op t)
    (hr : Regular s op) : t.xinsuCount = t.xinsus.card := by
  cases he with
  | createSymbol => exact count_congr h (xinsus_of_nfas rfl) rfl
  | authority => exact count_congr h (xinsus_of_nfas rfl) rfl
  | authorityNfaSymbol => exact count_congr h (xinsus_of_nfas rfl) rfl
  | create hby =>
    refine count_congr h (xinsus_append rfl fun hmark ↦ ?_) rfl
    cases hmark
    exact hr.creates _ _ hby
  | finishActor hcr hn =>
    have hgives : Gives s .finish _ _ := .actor hcr (by rw [State.ownerOf, hn, Option.map_some])
    refine count_balanced h ?_ (hr.gives _ _ hgives) rfl
    exact moved_modify rfl (fun _ ↦ rfl) fun _ ↦ rfl
  | finishAccount hcr =>
    refine count_balanced h ?_ (hr.gives _ _ (.account hcr)) rfl
    exact moved_modify rfl (fun _ ↦ rfl) fun _ ↦ rfl
  | @finishMark id receiver rest hcr =>
    obtain ⟨hne, hx, hkeeps⟩ := hr.grants rfl id receiver rest hcr
    have hmark := hl.waiting id receiver (hcr ▸ List.mem_cons_self)
    have hm : Moved (· = id) receiver s.markOwner (s.modifyNfa id (Nfa.setOwner receiver)).markOwner :=
      moved_modify rfl (fun _ ↦ rfl) fun _ ↦ rfl
    exact count_granted h hl (granted_card hm hmark hne hx hkeeps) (xinsus_of_nfas rfl) rfl
  | finishNewActor =>
    refine count_congr h (xinsus_eq ?_) rfl
    exact markOwner_modify rfl (fun _ ↦ rfl) fun _ ↦ rfl
  | finishNewZone => exact count_congr h (xinsus_of_nfas rfl) rfl
  | abort => exact count_congr h (xinsus_of_nfas rfl) rfl
  | transfer hn howner hparent hsbt ht =>
    exact count_balanced h (moved_reowned ht) (hr.gives _ _ .transfer) ht.xinsuCount
  | approve =>
    refine count_congr h (xinsus_eq ?_) rfl
    exact markOwner_modify rfl (fun _ ↦ rfl) fun _ ↦ rfl
  | attach =>
    refine count_congr h (xinsus_eq ?_) rfl
    exact markOwner_modify rfl (fun _ ↦ rfl) fun _ ↦ rfl
  | remove =>
    refine count_congr h (xinsus_eq ?_) rfl
    exact markOwner_modify rfl (fun _ ↦ rfl) fun _ ↦ rfl
  | destroy =>
    refine count_balanced h ?_ (hr.gives _ _ .destroy) rfl
    exact moved_modify rfl (fun _ ↦ rfl) fun _ ↦ rfl
  | @revoke account t hx ht =>
    obtain ⟨hne, hone⟩ := hr.revokes _ account rfl
    exact count_revoked h hl hone (revoked_card (moved_reowned ht) hne hx) (xinsus_of_nfas rfl) rfl

/-- An NFA whose owner is another was moved. -/
theorem moved_of_ne (ht : Reowned P owner s t) (hu : u.nfas = t.nfas) (hi : u.ownerOf i ≠ s.ownerOf i) :
    P i := by
  by_contra hkept
  exact hi ((ownerOf_of_nfas hu i).trans (ht.ownerOf_kept hkept))

/-- An account whose only NFA is its mark. -/
theorem markOwner_of_owned (hx : s.isXinsu account = true) (hone : (s.ownedBy account).length = 1)
    (howned : i ∈ s.ownedBy account) : s.markOwner i ≠ none := by
  obtain ⟨m, hmark⟩ := isXinsu_iff.mp hx
  have hmem : m ∈ s.ownedBy account := mem_ownedBy.mpr (ownerOf_of_markOwner hmark)
  obtain ⟨only, honly⟩ := List.length_eq_one_iff.mp hone
  rw [honly, List.mem_singleton] at hmem howned
  rw [howned, ← hmem, hmark]
  exact Option.some_ne_none _

theorem xinsuCount_pos (h : s.xinsuCount = s.xinsus.card) (hne : account ≠ danuoAccount)
    (hx : s.isXinsu account = true) : 0 < s.xinsuCount :=
  h ▸ Finset.card_pos.mpr ⟨account, mem_xinsus.mpr ⟨hne, hx⟩⟩

/-- What a revocation leaves to another owner. -/
theorem revoke_inv {caller : ℕ} (he : Effect s (.revokeXinsu caller account) t) :
    s.isXinsu account = true ∧ ∀ i, t.ownerOf i ≠ s.ownerOf i → i ∈ s.ownedBy account := by
  cases he with
  | create hby => cases hby
  | attach hop => cases hop
  | revoke hx ht => exact ⟨hx, fun i ↦ moved_of_ne ht rfl⟩

theorem revokesMarks (h : s.xinsuCount = s.xinsus.card)
    (hr : ∀ caller, Regular s (.revokeXinsu caller account)) : RevokesMarks s account := by
  intro caller t hop
  obtain ⟨hne, hone⟩ := (hr caller).revokes caller account rfl
  obtain ⟨hx, howned⟩ := revoke_inv (exec_effect hop)
  exact ⟨hone ▸ xinsuCount_pos h hne hx, fun i hi ↦ markOwner_of_owned hx hone (howned i hi)⟩

/-- The counter of xinsus is right in every state reached, and a mark is revoked alone. -/
theorem booked_of_reaches (h : Reaches Regular genesis t) :
    Booked t ∧ ∀ account, (∀ caller, Regular t (.revokeXinsu caller account)) → RevokesMarks t account := by
  have hrun : t.xinsuCount = t.xinsus.card ∧ Limited t := by
    induction h with
    | start =>
      exact ⟨by decide, ⟨_, rfl, by decide, by decide, rfl⟩, nofun⟩
    | call op _ ha hop ih =>
      exact ⟨count_effect ih.1 ih.2 (exec_effect hop) ha, limited_effect ih.2 (exec_effect hop)⟩
  exact ⟨⟨hrun.1, fun m ↦ by rw [State.votesThreshold, hrun.1]⟩, fun account hr ↦ revokesMarks hrun.1 hr⟩

/-- A mark granted to account 5, whose init function is running. -/
def granting : State :=
  { genesis.modifySymbol xinsuMark ({ · with count := 2 }) with
    nfas := genesis.nfas ++
      [{ ownerAccount := danuoAccount, activeAccount := danuoAccount, symbolId := xinsuMark }]
    creations := [(1, .mark 5)] }

theorem regular_grant : Regular genesis (.grantXinsu daoAccount 5) where
  gives _ _ hgives := nomatch hgives
  creates creator target hby := by
    cases hby
    exact .inl rfl
  grants := nofun
  revokes := nofun

theorem regular_granting : Regular granting .finish where
  gives _ _ hgives := by
    cases hgives with
    | actor hs => cases hs
    | account hs => cases hs
  creates _ _ hby := nomatch hby
  grants _ id receiver rest hs := by
    cases hs
    refine ⟨by decide, by decide, ?_⟩
    rintro account ⟨hne, -, ⟨i, hi⟩, hall⟩
    obtain rfl := hall i hi
    cases hi
    exact hne rfl
  revokes := nofun

/-- The mark of account 5 is counted. -/
theorem booked_granted :
    Booked { granting.modifyNfa 1 (Nfa.setOwner 5) with creations := [], xinsuCount := 2 } :=
  (booked_of_reaches (.call _ (.call (t := granting) _ .start regular_grant (by decide +kernel))
    regular_granting (by decide +kernel))).1

/-- The first siming has another NFA when its mark is revoked. -/
theorem owning_revoked : ¬∀ t, Reaches (fun _ _ ↦ True) genesis t →
    Booked t ∧ ∀ account, RevokesMarks t account := by
  intro h
  have hrevoke := (h owning (reaches_owning fun _ _ ↦ trivial)).2 initSiming
  obtain ⟨hle, -⟩ := hrevoke daoAccount
    { (owning.modifyNfa 0 (Nfa.setOwner danuoAccount)).modifyNfa 1 (Nfa.setOwner danuoAccount) with
      xinsuCount := 2 ^ 32 - 1 } (by decide +kernel)
  exact absurd hle (by decide)

end Booked

end Taiyi.Nfas
