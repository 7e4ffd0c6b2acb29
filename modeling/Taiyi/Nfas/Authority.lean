import Taiyi.Nfas.Effects

set_option autoImplicit false

namespace Taiyi.Nfas

variable {s s₀ t u : State} {op : Op} {y : ℕ}

/-- The account that the handler of a call takes for its caller. -/
def Op.caller : Op → Option ℕ
  | .createNfaSymbol caller _ _ _ => some caller
  | .changeNfaSymbolAuthority caller _ _ => some caller
  | .changeNfaSymbolAuthorityNfaSymbol caller _ _ => some caller
  | .createNfaToActor caller _ _ => some caller
  | .createNfaToAccount caller _ _ => some caller
  | .nfaCreateNfaToActor caller _ _ _ => some caller
  | .nfaCreateNfaToAccount caller _ _ _ => some caller
  | .createZone caller => some caller
  | .createActor caller => some caller
  | .grantXinsu caller _ => some caller
  | .revokeXinsu caller _ => some caller
  | .addChild caller _ _ => some caller
  | .addToParent caller _ _ => some caller
  | .addChildFromContractOwner caller _ _ _ => some caller
  | .addToParentFromContractOwner caller _ _ _ => some caller
  | .removeFromParent caller _ => some caller
  | .destroy caller _ => some caller
  | _ => none

/-- The call is made by an account without authority over the symbol. Granting a mark is not
restricted to its authority. -/
structure Outsider (y : ℕ) (s : State) (op : Op) : Prop where
  caller : ∀ caller, op.caller = some caller → ¬s.Authorized caller y
  grant : ∀ caller receiver, op = .grantXinsu caller receiver → y ≠ xinsuMark

/-- What the calls leave unchecked: who changes the authority of a symbol, and who creates with the
authority of the owner of an NFA. -/
def Respects (y : ℕ) (s : State) : Op → Prop
  | .changeNfaSymbolAuthority _ symbol account => s.symbolNamed symbol = some y →
    s.symbols[y]?.map NfaSymbol.authorityAccount = some account
  | .changeNfaSymbolAuthorityNfaSymbol _ symbol name => s.symbolNamed symbol = some y →
    s.symbols[y]?.map NfaSymbol.authorityNfaSymbol = some (s.symbolNamed name)
  | .nfaCreateNfaToActor _ self _ symbol => s.symbolNamed symbol = some y →
    ∀ owner, s.ownerOf self = some owner → ¬s.Authorized owner y
  | .nfaCreateNfaToAccount _ self _ symbol => s.symbolNamed symbol = some y →
    ∀ owner, s.ownerOf self = some owner → ¬s.Authorized owner y
  | _ => True

/-- The authority of the symbol is as it was, and it has no new NFA. -/
structure Untouched (y : ℕ) (s t : State) : Prop where
  authority : ∀ z, s.symbols[y]? = some z → ∃ z', t.symbols[y]? = some z' ∧
    z'.authorityAccount = z.authorityAccount ∧ z'.authorityNfaSymbol = z.authorityNfaSymbol
  nfas : ∀ (i : ℕ) (n : Nfa), t.nfas[i]? = some n → n.symbolId = y → i < s.nfas.length

theorem Untouched.refl (y : ℕ) (s : State) : Untouched y s s :=
  ⟨fun z hz ↦ ⟨z, hz, rfl, rfl⟩, fun _ _ hn _ ↦ (List.getElem?_eq_some_iff.mp hn).1⟩

theorem Untouched.trans (h : Untouched y s t) (h' : Untouched y t u) (hp : Persists t u) :
    Untouched y s u where
  authority z hz := by
    obtain ⟨z', hz', haccount, hsymbol⟩ := h.authority z hz
    obtain ⟨z'', hz'', haccount', hsymbol'⟩ := h'.authority z' hz'
    exact ⟨z'', hz'', haccount'.trans haccount, hsymbol'.trans hsymbol⟩
  nfas i n hn hy := by
    have hlt := h'.nfas i n hn hy
    obtain ⟨n', hn', hid⟩ := hp.nfas i _ (List.getElem?_eq_getElem hlt)
    rw [hn] at hn'
    cases hn'
    exact h.nfas i _ (List.getElem?_eq_getElem hlt) (hid.symm.trans hy)

theorem Untouched.of_symbols (hsymbols : t.symbols = s.symbols)
    (hlen : t.nfas.length = s.nfas.length) : Untouched y s t :=
  ⟨fun z hz ↦ ⟨z, by rw [hsymbols, hz], rfl, rfl⟩,
    fun i n hn _ ↦ hlen ▸ (List.getElem?_eq_some_iff.mp hn).1⟩

theorem Untouched.modifySymbol {id : ℕ} {f : NfaSymbol → NfaSymbol}
    (hf : id = y → ∀ z, s.symbols[y]? = some z →
      (f z).authorityAccount = z.authorityAccount ∧ (f z).authorityNfaSymbol = z.authorityNfaSymbol) :
    Untouched y s (s.modifySymbol id f) where
  authority z hz := by
    rw [State.modifySymbol, List.getElem?_modify, hz]
    split
    · next heq => exact ⟨f z, rfl, hf heq z hz⟩
    · exact ⟨z, rfl, rfl, rfl⟩
  nfas _ _ hn _ := (List.getElem?_eq_some_iff.mp hn).1

/-- A creation by an outsider is of another symbol. -/
theorem symbolId_ne_of_creates {creator symbolId : ℕ} {target : Target}
    (hby : Creates s op creator symbolId target) (ho : Outsider y s op) (hr : Respects y s op) :
    symbolId ≠ y := by
  rintro rfl
  cases hby with
  | toActor hname hauth => exact ho.caller _ rfl hauth
  | toAccount hname hauth => exact ho.caller _ rfl hauth
  | nfaToActor hn hname hauth => exact hr hname _ (by rw [State.ownerOf, hn, Option.map_some]) hauth
  | nfaToAccount hn hname hauth => exact hr hname _ (by rw [State.ownerOf, hn, Option.map_some]) hauth
  | zone hname hauth => exact ho.caller _ rfl hauth
  | actor hname hauth => exact ho.caller _ rfl hauth
  | grant => exact ho.grant _ _ rfl rfl

theorem untouched_effect (he : Effect s op t) (ho : Outsider y s op) (hr : Respects y s op) :
    Untouched y s t := by
  cases he with
  | createSymbol =>
    refine ⟨fun z hz ↦ ⟨z, ?_, rfl, rfl⟩, fun i n hn _ ↦ (List.getElem?_eq_some_iff.mp hn).1⟩
    rw [List.getElem?_append_left (List.getElem?_eq_some_iff.mp hz).1, hz]
  | authority hid =>
    refine .modifySymbol fun heq z hz ↦ ⟨?_, rfl⟩
    have hsame := hr (heq ▸ hid)
    rw [hz] at hsame
    exact (Option.some_inj.mp hsame).symm
  | authorityNfaSymbol hid hname =>
    refine .modifySymbol fun heq z hz ↦ ⟨rfl, ?_⟩
    have hsame := hr (heq ▸ hid)
    rw [hz, hname] at hsame
    exact (Option.some_inj.mp hsame).symm
  | @create _ creator symbolId target z hby hz hcount =>
    have hne := symbolId_ne_of_creates hby ho hr
    have hkept : Untouched y s (s.modifySymbol symbolId ({ · with count := z.count + 1 })) :=
      .modifySymbol fun heq ↦ absurd heq hne
    refine ⟨hkept.authority, fun i n hn hid ↦ ?_⟩
    by_contra hge
    obtain rfl : n = { ownerAccount := creator, activeAccount := creator, symbolId } :=
      List.mem_singleton.mp (List.mem_of_getElem? ((List.getElem?_append_right (by omega)).symm.trans hn))
    exact hne hid
  | finishActor => exact .of_symbols rfl length_modifyNfa
  | finishAccount => exact .of_symbols rfl length_modifyNfa
  | finishMark => exact .of_symbols rfl length_modifyNfa
  | finishNewActor => exact .of_symbols rfl length_modifyNfa
  | finishNewZone => exact .of_symbols rfl rfl
  | abort => exact .of_symbols rfl rfl
  | transfer hn howner hparent hsbt ht => exact .of_symbols ht.symbols ht.length
  | approve => exact .of_symbols rfl length_modifyNfa
  | attach => exact .of_symbols rfl length_modifyNfa
  | remove => exact .of_symbols rfl length_modifyNfa
  | destroy => exact .of_symbols rfl length_modifyNfa
  | revoke hx ht => exact .of_symbols ht.symbols ht.length

/-- An outsider changes nothing about a symbol, as long as no call names it to change its authority
or to create with the authority of an NFA's owner. -/
theorem untouched_of_reaches (h : Reaches (fun s op ↦ Outsider y s op ∧ Respects y s op) s₀ t) :
    Untouched y s₀ t := by
  induction h with
  | start => exact .refl y s₀
  | call op _ ha hop ih =>
    have heffect := exec_effect hop
    exact ih.trans (untouched_effect heffect ha.1 ha.2) (persists_effect heffect)

/-- Account 5 creates a symbol of its own. -/
theorem untouched_owning_create : Untouched 3 owning { owning with
    symbols := owning.symbols ++
      [{ symbol := "nfa.b", authorityAccount := 5, maxCount := 10, isSbt := false }] } := by
  have houtsider : Outsider 3 owning (.createNfaSymbol 5 "nfa.b" 10 false) := by
    refine ⟨?_, nofun⟩
    rintro caller hcaller ⟨z, hz, hauth⟩
    cases hcaller
    cases hz
    exact absurd hauth (by decide)
  exact untouched_of_reaches
    (.call (.createNfaSymbol 5 "nfa.b" 10 false) .start ⟨houtsider, trivial⟩ (by decide +kernel))

/-- Account 5 makes itself the authority of the marks. -/
theorem mark_authority_changed :
    ¬∀ s₀ t y, Reaches (fun _ _ ↦ True) genesis s₀ → Reaches (Outsider y) s₀ t → Untouched y s₀ t := by
  intro h
  have hrun : genesis.exec (.changeNfaSymbolAuthority 5 "nfa.xinsu.mark" 5) =
      .ok (genesis.modifySymbol 0 ({ · with authorityAccount := 5 })) := by decide +kernel
  have houtsider : Outsider 0 genesis (.changeNfaSymbolAuthority 5 "nfa.xinsu.mark" 5) := by
    refine ⟨?_, nofun⟩
    rintro caller hcaller ⟨z, hz, hauth⟩
    cases hcaller
    cases hz
    exact absurd hauth (by decide)
  have huntouched := h genesis _ 0 .start (.call _ .start houtsider hrun)
  obtain ⟨z, hz, hsame, -⟩ := huntouched.authority _ rfl
  cases hz
  cases hsame

end Taiyi.Nfas
