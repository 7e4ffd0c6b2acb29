import Taiyi.Transactions.Replay

set_option autoImplicit false

namespace Taiyi.Transactions

variable {Op Sig TrxId Result World Header : Type} [DecidableEq TrxId] [TransactionId Op TrxId]
  [Protocol Op Sig Result World Header]

/-- The head state with the two queues of transactions that are not in a block. `session` is
the state in `_pending_tx_session`, when one is open. -/
structure Mempool (Op Sig TrxId Result World : Type) where
  head : State Op Sig TrxId Result World
  session : Option (State Op Sig TrxId Result World)
  pendingTx : List (SignedTransaction Op Sig)
  poppedTx : List (SignedTransaction Op Sig)

namespace Mempool

/-- What `push_block` leaves, whether it returns or throws. -/
abbrev Outcome (Op Sig TrxId Result World : Type) :=
  State Op Sig TrxId Result World × List (SignedTransaction Op Sig)

variable (m : Mempool Op Sig TrxId Result World) (skip : SkipFlags)

def current : State Op Sig TrxId Result World := m.session.getD m.head

def clearPending : Mempool Op Sig TrxId Result World :=
  { m with session := none, pendingTx := [] }

/-- The session that stays open when the transaction on top of it fails. -/
def opened : Mempool Op Sig TrxId Result World := { m with session := some m.current }

/-- `database::_push_transaction`. -/
def pushTransaction (t : SignedTransaction Op Sig) :
    Except ApplyError (Mempool Op Sig TrxId Result World) :=
  match applyTransaction skip t m.current with
  | .error e => .error e
  | .ok s => .ok { m with session := some s, pendingTx := m.pendingTx ++ [t] }

/-- One round of the loops of `pending_transactions_restorer`. -/
def restoreOne (applyTrxs : Bool) (t : SignedTransaction Op Sig) :
    Mempool Op Sig TrxId Result World :=
  if applyTrxs then
    if m.current.isKnownTransaction t.id then m
    else
      match m.pushTransaction skip t with
      | .error _ => m.opened
      | .ok m => m
  else { m with pendingTx := m.pendingTx ++ [t] }

/-- A loop over a queue. `late k` answers whether the `k`-th look at the clock is past the
limit; once it was, `apply_trxs` stays down. -/
def restoreAll (skip : SkipFlags) (late : ℕ → Bool) : ℕ → Bool → List (SignedTransaction Op Sig) →
    Mempool Op Sig TrxId Result World → Bool × Mempool Op Sig TrxId Result World
  | _, applyTrxs, [], m => (applyTrxs, m)
  | k, applyTrxs, t :: ts, m =>
    restoreAll skip late (k + 1) (applyTrxs && !late k) ts
      (m.restoreOne skip (applyTrxs && !late k) t)

/-- The destructor of `pending_transactions_restorer`. -/
def restore (late : ℕ → Bool) (pending : List (SignedTransaction Op Sig)) :
    Mempool Op Sig TrxId Result World :=
  let (applyTrxs, m') := restoreAll skip late 0 true m.poppedTx m
  (restoreAll skip late m.poppedTx.length applyTrxs pending { m' with poppedTx := [] }).2

/-- `without_pending_transactions` around `_push_block`, which may leave any head state and any
queue of popped transactions. -/
def withoutPendingTransactions (late : ℕ → Bool)
    (pushBlock : Outcome Op Sig TrxId Result World → Outcome Op Sig TrxId Result World) :
    Mempool Op Sig TrxId Result World :=
  let (head, popped) := pushBlock (m.head, m.poppedTx)
  restore ⟨head, none, [], popped⟩ skip late m.pendingTx

end Mempool

namespace Mempool

variable {m m' : Mempool Op Sig TrxId Result World} {skip : SkipFlags} {late : ℕ → Bool}
  {t : SignedTransaction Op Sig} {ts us popped pending : List (SignedTransaction Op Sig)}
  {k : ℕ} {a : Bool}

def ids (m : Mempool Op Sig TrxId Result World) : List TrxId :=
  m.pendingTx.map SignedTransaction.id

theorem restoreAll_append : restoreAll skip late k a (ts ++ us) m =
    restoreAll skip late (k + ts.length) (restoreAll skip late k a ts m).1 us
      (restoreAll skip late k a ts m).2 := by
  induction ts generalizing k a m with
  | nil => rfl
  | cons t ts ih =>
    rw [List.cons_append, restoreAll, ih, restoreAll, List.length_cons, Nat.add_right_comm k,
      Nat.add_assoc k]

/-- The state in which the transaction after `pre` has its turn, and whether it is applied. -/
def turn (skip : SkipFlags) (late : ℕ → Bool) (m : Mempool Op Sig TrxId Result World)
    (pre : List (SignedTransaction Op Sig)) : Bool × Mempool Op Sig TrxId Result World :=
  ((restoreAll skip late 0 true pre m).1 && !late pre.length, (restoreAll skip late 0 true pre m).2)

theorem restoreAll_concat : restoreAll skip late 0 true (ts ++ [t]) m =
    ((turn skip late m ts).1, (turn skip late m ts).2.restoreOne skip (turn skip late m ts).1 t) := by
  rw [restoreAll_append, Nat.zero_add]
  rfl

theorem restoreOne_poppedTx (p : List (SignedTransaction Op Sig)) :
    ({ m with poppedTx := p } : Mempool Op Sig TrxId Result World).restoreOne skip a t =
      { m.restoreOne skip a t with poppedTx := p } := by
  unfold restoreOne pushTransaction
  simp only [current, opened]
  cases a with
  | false => rfl
  | true =>
    by_cases hk : (m.session.getD m.head).isKnownTransaction t.id = true
    · simp only [hk, if_true]
    · simp only [hk, if_true, if_false, Bool.false_eq_true]
      cases applyTransaction skip t (m.session.getD m.head) <;> rfl

theorem restoreAll_poppedTx (p : List (SignedTransaction Op Sig)) :
    (restoreAll skip late k a ts { m with poppedTx := p }) =
      ((restoreAll skip late k a ts m).1, { (restoreAll skip late k a ts m).2 with poppedTx := p }) := by
  induction ts generalizing k a m with
  | nil => rfl
  | cons t ts ih => rw [restoreAll, restoreOne_poppedTx, ih, restoreAll]

/-- The two loops are one loop over both queues. -/
theorem restore_eq : m.restore skip late pending =
    { (restoreAll skip late 0 true (m.poppedTx ++ pending) m).2 with poppedTx := [] } := by
  unfold restore
  simp only [restoreAll_poppedTx, restoreAll_append, Nat.zero_add]

end Mempool

end Taiyi.Transactions
