import Mathlib.Tactic.Common

set_option autoImplicit false

namespace Taiyi.Producer

/-- What contracts leave in the process outside of the database, where no undo session reaches:
`_contract_handler_exe_point` and `s_invoking_path`. -/
structure Process where
  exePoint : ℕ := 0
  invokingPath : List String := []
  overrun : Bool := false
  deriving DecidableEq

namespace Process

variable (p : Process)

def addExePoint (n : ℕ) : Process := { p with exePoint := p.exePoint + n }

def clearExePoint (init : ℕ) : Process := { p with exePoint := init }

def clearPath : Process := { p with invokingPath := [] }

def pushPath (contractName : String) : Process :=
  { p with invokingPath := p.invokingPath ++ [contractName] }

/-- `pop_back`. Without an element the process is overrun: what it does from there on is open. -/
def popPath : Process :=
  { p with
    invokingPath := p.invokingPath.dropLast
    overrun := p.overrun || p.invokingPath.isEmpty }

end Process

/-- The checks of an evaluator before it clears the counter, and what it charges for the drops
of the machine and the points of the helpers. -/
structure Meter (World : Type) where
  precheck : World → Option String
  settle : ℕ → ℕ → World → Option String × World

/-- A call of `invoke_contract_function`: the contract that it names, whether there is one, and
whether it is the one that runs. -/
structure Invocation (World : Type) extends Meter World where
  contractName : String
  found : World → Bool
  recursive : Bool

/-- A run of the deterministic machine, which ends because it runs out of drops. A helper costs
points and changes the world; the run goes on with what the helper read. After an invocation it
goes on with the error, when there was one: `pcall` may have caught it. -/
inductive Script (World Result : Type)
  | done (drops : ℕ) (result : Result)
  | failed (e : String)
  | helper (points : World → ℕ) (effect : World → World) (resume : World → Script World Result)
  | invoke (i : Invocation World) (callee : World → Script World Result)
      (resume : Option String → Script World Result)

structure Ended (World Result : Type) where
  answer : Except String (ℕ × Result)
  world : World
  process : Process

variable {World Result : Type}

/-- The end of an evaluator after the run; only `call_contract_function` puts the counter back. -/
def Meter.finish (m : Meter World) (backup : Option ℕ) (e : Ended World Result) :
    Ended World Result :=
  match e.answer with
  | .error _ => e
  | .ok (drops, result) =>
    let p := (backup.map e.process.clearExePoint).getD e.process
    match m.settle drops e.process.exePoint e.world with
    | (some err, w) => ⟨.error err, w, p⟩
    | (none, w) => ⟨.ok (drops, result), w, p⟩

def Script.run : Script World Result → World → Process → Ended World Result
  | .done drops result, w, p => ⟨.ok (drops, result), w, p⟩
  | .failed e, w, p => ⟨.error e, w, p⟩
  | .helper points effect resume, w, p => (resume w).run (effect w) (p.addExePoint (points w))
  | .invoke i callee resume, w, p =>
    if !i.found w then
      (resume (some ("contract named \"" ++ i.contractName ++ "\" is not exist"))).run w p.clearPath
    else if i.contractName ∈ p.invokingPath then
      (resume (some "Contract cicular references are prohibitted in invoking")).run w p.clearPath
    else
      let p' := p.pushPath i.contractName
      if i.recursive then
        (resume (some "You can't use it to make recursive calls")).run w p'.clearPath
      else
        match i.precheck w with
        | some e => (resume (some e)).run w p'.clearPath
        | none =>
          let ended := i.finish (some p.exePoint) ((callee w).run w (p'.clearExePoint 0))
          match ended.answer with
          | .error e => (resume (some e)).run ended.world ended.process.clearPath
          | .ok _ => (resume none).run ended.world (ended.process.addExePoint 5).popPath

inductive Interruption
  | thrown (e : String)
  | unexpected

/-- What an operation does: an evaluator without contracts, `custom_json` with its length, its
number of authorities and its interpreter, or a metered run of a contract. -/
inductive Evaluator (World Result : Type)
  | plain (apply : World → Except String (Result × World))
  | custom (tooLong tooManyAuths : Bool) (interpret : World → Option Interruption × World)
      (void : Result)
  | contract (restores : Bool) (m : Meter World) (script : World → Script World Result)

def Evaluator.apply (producing : Bool) (w : World) (p : Process) :
    Evaluator World Result → Except String (Result × World) × Process
  | .plain apply => (apply w, p)
  | .custom tooLong tooManyAuths interpret void =>
    if producing && tooLong then (.error "Operation JSON must be less than bytes.", p)
    else if tooManyAuths then (.error "Authority membership exceeded.", p)
    else
      match interpret w with
      | (some (.thrown e), w') => (if producing then .error e else .ok (void, w'), p)
      | (_, w') => (.ok (void, w'), p)
  | .contract restores m script =>
    match m.precheck w with
    | some e => (.error e, p)
    | none =>
      let ended := m.finish (if restores then some p.exePoint else none)
        ((script w).run w (p.clearExePoint 0))
      (ended.answer.map fun r ↦ (r.2, ended.world), ended.process)

/-- The next part of a call, in the process that this one leaves. -/
def andThen {ε α β : Type} (x : Except ε α × Process) (f : α → Process → Except ε β × Process) :
    Except ε β × Process :=
  match x with
  | (.error e, p) => (.error e, p)
  | (.ok a, p) => f a p

theorem andThen_ok {ε α β : Type} {x : Except ε α × Process}
    {f : α → Process → Except ε β × Process} {b : β} {q : Process} :
    andThen x f = (.ok b, q) ↔ ∃ a p, x = (.ok a, p) ∧ f a p = (.ok b, q) := by
  obtain ⟨_ | a, p⟩ := x
  · simp [andThen]
  · simp [andThen]

theorem andThen_ok_eq {ε α β : Type} {x : Except ε α × Process}
    {f : α → Process → Except ε β × Process} {a : α} {p : Process} (h : x = (.ok a, p)) :
    andThen x f = f a p := by
  rw [h]
  rfl

theorem andThen_fst {ε α β : Type} {x y : Except ε α × Process}
    {f : α → Process → Except ε β × Process} (h : x.1 = y.1)
    (hf : ∀ a, x.1 = .ok a → (f a x.2).1 = (f a y.2).1) : (andThen x f).1 = (andThen y f).1 := by
  obtain ⟨_ | a, p⟩ := x <;> obtain ⟨y, q⟩ := y <;> obtain rfl := h
  · rfl
  · exact hf a rfl

namespace Process

/-- The process after an overrun. -/
def mark (p : Process) : Process := { p with overrun := true }

end Process

def Ended.mark (e : Ended World Result) : Ended World Result :=
  { e with process := e.process.mark }

theorem Meter.finish_mark (m : Meter World) (backup : Option ℕ) (e : Ended World Result) :
    m.finish backup e.mark = (m.finish backup e).mark := by
  obtain ⟨answer, w, p⟩ := e
  cases answer with
  | error e => rfl
  | ok r =>
    have hexe : p.mark.exePoint = p.exePoint := rfl
    simp only [Meter.finish, Ended.mark, hexe]
    generalize m.settle r.1 p.exePoint w = settled
    obtain ⟨_ | err, w'⟩ := settled <;> cases backup <;> rfl

/-- No run looks at the overrun that came before it. -/
theorem Script.run_mark (s : Script World Result) (w : World) (p : Process) :
    s.run w p.mark = (s.run w p).mark := by
  induction s generalizing w p with
  | done drops result => rfl
  | failed e => rfl
  | helper points effect resume ih => exact ih w (effect w) (p.addExePoint (points w))
  | invoke i callee resume ihc ihr =>
    have hclear : p.mark.clearPath = p.clearPath.mark := rfl
    have hpush : ∀ c, (p.mark.pushPath c) = (p.pushPath c).mark := fun _ ↦ rfl
    have hpath : p.mark.invokingPath = p.invokingPath := rfl
    rw [run, run]
    simp only [hpath]
    split
    · exact ihr _ w p.clearPath
    split
    · exact ihr _ w p.clearPath
    split
    · exact ihr _ w (p.pushPath i.contractName).clearPath
    split
    · exact ihr _ w (p.pushPath i.contractName).clearPath
    · have hrun := ihc w w ((p.pushPath i.contractName).clearExePoint 0)
      have hexe : p.mark.exePoint = p.exePoint := rfl
      have hmark : (p.mark.pushPath i.contractName).clearExePoint 0 =
          ((p.pushPath i.contractName).clearExePoint 0).mark := rfl
      simp only [hexe, hmark, hrun, Meter.finish_mark]
      generalize i.finish (some p.exePoint)
        ((callee w).run w ((p.pushPath i.contractName).clearExePoint 0)) = ended
      obtain ⟨answer, w', q⟩ := ended
      cases answer with
      | error e => exact ihr _ w' q.clearPath
      | ok r =>
        have hpop : (q.mark.addExePoint 5).popPath = (q.addExePoint 5).popPath.mark := by
          simp [Process.popPath, Process.mark, Process.addExePoint]
        exact (congrArg ((resume none).run w') hpop).trans (ihr _ w' (q.addExePoint 5).popPath)

/-- What the counter is put back to is all that the end of an evaluator does to the process. -/
theorem Meter.finish_eq (m : Meter World) (backup : Option ℕ) (e : Ended World Result) :
    (m.finish backup e).answer = (m.finish none e).answer ∧
      (m.finish backup e).world = (m.finish none e).world ∧
      (m.finish backup e).process.invokingPath = e.process.invokingPath ∧
      (m.finish backup e).process.overrun = e.process.overrun := by
  obtain ⟨answer, w, p⟩ := e
  cases answer with
  | error e => exact ⟨rfl, rfl, rfl, rfl⟩
  | ok r =>
    simp only [Meter.finish]
    generalize m.settle r.1 p.exePoint w = settled
    obtain ⟨_ | err, w'⟩ := settled <;> cases backup <;> exact ⟨rfl, rfl, rfl, rfl⟩

/-- The path is as it was before the run, or an error has cleared it. -/
theorem Script.run_invokingPath (s : Script World Result) (w : World) (p : Process) :
    (s.run w p).process.invokingPath = p.invokingPath ∨ (s.run w p).process.invokingPath = [] := by
  induction s generalizing w p with
  | done drops result => exact .inl rfl
  | failed e => exact .inl rfl
  | helper points effect resume ih => exact ih w (effect w) (p.addExePoint (points w))
  | invoke i callee resume ihc ihr =>
    have hcleared : ∀ r w' (q : Process), ((resume r).run w' q.clearPath).process.invokingPath = [] :=
      fun r w' q ↦ (ihr r w' q.clearPath).elim id id
    rw [run]
    split
    · exact .inr (hcleared _ w p)
    split
    · exact .inr (hcleared _ w p)
    split
    · exact .inr (hcleared _ w _)
    split
    · exact .inr (hcleared _ w _)
    · have hcallee := ihc w w ((p.pushPath i.contractName).clearExePoint 0)
      rw [← (Meter.finish_eq i.toMeter (some p.exePoint) _).2.2.1] at hcallee
      dsimp only
      revert hcallee
      generalize i.finish (some p.exePoint)
        ((callee w).run w ((p.pushPath i.contractName).clearExePoint 0)) = ended
      obtain ⟨answer, w', q⟩ := ended
      intro hcallee
      cases answer with
      | error e => exact .inr (hcleared _ w' q)
      | ok r =>
        have hpop : (q.addExePoint 5).popPath.invokingPath = p.invokingPath ∨
            (q.addExePoint 5).popPath.invokingPath = [] := by
          change q.invokingPath.dropLast = _ ∨ q.invokingPath.dropLast = []
          rcases hcallee with h | h
          · left
            rw [show q.invokingPath = p.invokingPath ++ [i.contractName] from h,
              List.dropLast_concat]
          · right
            rw [show q.invokingPath = [] from h, List.dropLast_nil]
        rcases ihr none w' (q.addExePoint 5).popPath with h | h
        · rw [h]
          exact hpop
        · exact .inr h

namespace Process

/-- Two processes between operations that differ at most in what the counter was left at. -/
structure Alike (p q : Process) : Prop where
  left : p.invokingPath = []
  right : q.invokingPath = []
  overrun : p.overrun = q.overrun

theorem Alike.clearExePoint {p q : Process} (h : Alike p q) :
    p.clearExePoint 0 = q.clearExePoint 0 := by
  simp [Process.clearExePoint, h.left, h.right, h.overrun]

theorem clearExePoint_eq {p : Process} (h : p.invokingPath = []) :
    p.clearExePoint 0 = {} ∨ p.clearExePoint 0 = mark {} := by
  obtain ⟨exePoint, path, overrun⟩ := p
  obtain rfl : path = [] := h
  cases overrun with
  | false => exact .inl rfl
  | true => exact .inr rfl

/-- What every operation keeps of the process it starts in. -/
structure Follows (p q : Process) : Prop where
  path : p.invokingPath = [] → q.invokingPath = []
  overrun : p.overrun = true → q.overrun = true

theorem Follows.refl (p : Process) : Follows p p := ⟨id, id⟩

theorem Follows.trans {p q r : Process} (h : Follows p q) (h' : Follows q r) : Follows p r :=
  ⟨h'.path ∘ h.path, h'.overrun ∘ h.overrun⟩

theorem Follows.andThen {ε α β : Type} {p : Process} {x : Except ε α × Process}
    {f : α → Process → Except ε β × Process} (h : p.Follows x.2)
    (hf : ∀ (a : α) (q : Process), q.Follows (f a q).2) : p.Follows (andThen x f).2 := by
  obtain ⟨_ | a, q⟩ := x
  · exact h
  · exact h.trans (hf a q)

end Process

namespace Evaluator

variable {v : Evaluator World Result} {p q : Process} {w : World} {r : Result × World}
  {producing producing' : Bool}

/-- What a process was left at does not reach the result of an operation. -/
theorem apply_eq (hp : p.invokingPath = []) : (v.apply producing w p).1 = (v.apply producing w {}).1 := by
  cases v with
  | plain apply => rfl
  | custom tooLong tooManyAuths interpret void =>
    simp only [Evaluator.apply]
    split
    · rfl
    split
    · rfl
    split <;> rfl
  | contract restores m script =>
    simp only [Evaluator.apply]
    cases m.precheck w with
    | some e => rfl
    | none =>
      dsimp only
      rw [(m.finish_eq (if restores then some p.exePoint else none) _).1,
        (m.finish_eq (if restores then some p.exePoint else none) _).2.1,
        (m.finish_eq (if restores then some (Process.exePoint {}) else none) _).1,
        (m.finish_eq (if restores then some (Process.exePoint {}) else none) _).2.1]
      rcases Process.clearExePoint_eq hp with h | h
      · rw [h]
        rfl
      · rw [h, Script.run_mark, Meter.finish_mark]
        rfl

theorem apply_alike (h : Process.Alike p q) :
    Process.Alike (v.apply producing w p).2 (v.apply producing' w q).2 := by
  cases v with
  | plain apply => exact h
  | custom tooLong tooManyAuths interpret void =>
    have hp : ∀ b (x : Process), ((custom tooLong tooManyAuths interpret void).apply b w x).2 = x := by
      intro b x
      simp only [Evaluator.apply]
      split
      · rfl
      split
      · rfl
      split <;> rfl
    rw [hp, hp]
    exact h
  | contract restores m script =>
    simp only [Evaluator.apply]
    cases m.precheck w with
    | some e => exact h
    | none =>
      simp only [h.clearExePoint]
      have hpath : ((script w).run w (q.clearExePoint 0)).process.invokingPath = [] :=
        ((script w).run_invokingPath w (q.clearExePoint 0)).elim
          (fun hq ↦ hq.trans h.right) id
      refine ⟨?_, ?_, ?_⟩
      · rw [(m.finish_eq _ _).2.2.1, hpath]
      · rw [(m.finish_eq _ _).2.2.1, hpath]
      · rw [(m.finish_eq _ _).2.2.2, (m.finish_eq _ _).2.2.2]

/-- An operation that applies during production applies with the same result in the block. -/
theorem apply_of_producing (h : (v.apply true w p).1 = .ok r) :
    (v.apply false w p).1 = .ok r := by
  cases v with
  | plain apply => exact h
  | custom tooLong tooManyAuths interpret void =>
    simp only [Evaluator.apply, Bool.true_and, Bool.false_and, Bool.false_eq_true, if_false] at h ⊢
    split at h
    · cases h
    split at h
    · cases h
    next hauths =>
    rw [if_neg hauths]
    cases hi : interpret w with
    | mk interrupted w' =>
      rw [hi] at h
      cases interrupted with
      | none => exact h
      | some interruption =>
        cases interruption with
        | thrown e => cases h
        | unexpected => exact h
  | contract restores m script => exact h

/-- The same in two processes that are alike, which stay so. -/
theorem exists_of_producing {p' : Process} (h : Process.Alike p q)
    (hv : v.apply true w p = (.ok r, p')) :
    ∃ q', v.apply false w q = (.ok r, q') ∧ Process.Alike p' q' := by
  have hq : (v.apply false w q).1 = .ok r := by
    rw [apply_eq h.right, ← apply_eq h.left]
    exact apply_of_producing (congrArg Prod.fst hv)
  have halike : Process.Alike (v.apply true w p).2 (v.apply false w q).2 := apply_alike h
  rw [hv] at halike
  exact ⟨_, Prod.ext hq rfl, halike⟩

theorem overrun_apply (h : p.overrun = true) : (v.apply producing w p).2.overrun = true := by
  have hp : p = p.mark := by simp [Process.mark, ← h]
  cases v with
  | plain apply => exact h
  | custom tooLong tooManyAuths interpret void =>
    simp only [Evaluator.apply]
    split
    · exact h
    split
    · exact h
    split <;> exact h
  | contract restores m script =>
    simp only [Evaluator.apply]
    cases m.precheck w with
    | some e => exact h
    | none =>
      have hmark : p.clearExePoint 0 = (p.clearExePoint 0).mark := by
        rw [hp]
        rfl
      rw [hmark, Script.run_mark]
      dsimp only
      rw [(m.finish_eq _ _).2.2.2]
      rfl

theorem apply_follows (v : Evaluator World Result) (producing : Bool) (w : World) (p : Process) :
    p.Follows (v.apply producing w p).2 := by
  refine ⟨fun h ↦ ?_, overrun_apply⟩
  have halike : Process.Alike (v.apply producing w p).2 (v.apply producing w p).2 :=
    apply_alike ⟨h, h, rfl⟩
  exact halike.left

end Evaluator

end Taiyi.Producer
