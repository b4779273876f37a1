import Mathlib.Algebra.BigOperators.Group.Finset.Piecewise
import RdmaIht.Common
import RdmaIht.Concurrency.Termination

/-! `Init` of `Hashtable` and of `TestMap`, on all nodes at once.

The host makes the structure and sends its address to the other nodes, one after the
other; each of them waits for the address on its connection to the host. A call to
the connection manager or to a channel may fail at any time, and `TryDeliver` may
find nothing even if a message is on its way. What comes is in the order sent.
-/

set_option autoImplicit false

namespace RdmaIht.RootExchange

open Concurrency

/-- What a call to the connection manager or to a channel returns. -/
inductive Answer where
  | ok
  /-- `absl::StatusCode::kUnavailable` -/
  | unavailable
  /-- any other status; a message whose `Send` fails may arrive -/
  | error (arrives : Bool)
  deriving DecidableEq, Repr

inductive Pc where
  | start
  /-- the head of the host's loop, with the peers to come -/
  | loop (rest : List Nat)
  /-- `Send` to a peer -/
  | send (peer : Nat) (rest : List Nat)
  /-- `TryDeliver` of another node -/
  | deliver
  | returned (ok : Bool)
  deriving DecidableEq, Repr

structure State (M : Type) where
  pcs : Nat → Pc
  /-- `this->root` of each node -/
  roots : Nat → Option RemotePtr
  /-- what the host has made -/
  shared : Option M
  /-- `raddr` of the messages in flight from the host to a node -/
  channel : Nat → List Nat
  /-- and of all that were ever sent to it -/
  sent : Nat → List Nat

structure Action where
  node : Nat
  answer : Answer
  deriving DecidableEq, Repr

section Exec

variable {M : Type}

def State.goto (s : State M) (node : Nat) (pc : Pc) : State M := { s with pcs := Function.update s.pcs node pc }

def State.setRoot (s : State M) (node : Nat) (root : RemotePtr) : State M :=
  { s with roots := Function.update s.roots node (some root) }

def State.push (s : State M) (peer address : Nat) : State M := { s with
  channel := Function.update s.channel peer (s.channel peer ++ [address])
  sent := Function.update s.sent peer (s.sent peer ++ [address]) }

variable (host : Nat) (peers : List Nat) (address : Nat) (made : M)

/-- `ROME_CHECK_OK(ROME_RETURN(conn_or.status()), conn_or)` after `GetConnection` -/
def State.connect (s : State M) (node : Nat) (next : Pc) : Answer → State M
  | .ok => s.goto node next
  | .unavailable | .error _ => s.goto node (.returned false)

def hostStep (s : State M) : Pc → Answer → Option (State M)
  | .start, .ok => some { (s.goto host (.loop peers)).setRoot host ⟨host, address⟩ with shared := some made }
  | .loop [], .ok => some (s.goto host (.returned true))
  | .loop (peer :: rest), answer =>
    if peer = host then
      match answer with
      | .ok => some (s.goto host (.loop rest))
      | .unavailable | .error _ => none
    else some (s.connect host (.send peer rest) answer)
  | .send peer rest, .ok => some ((s.push peer address).goto host (.loop rest))
  | .send peer _, .error true => some ((s.push peer address).goto host (.returned false))
  | .send _ _, .unavailable | .send _ _, .error false => some (s.goto host (.returned false))
  | .start, _ | .loop [], _ | .deliver, _ | .returned _, _ => none

def peerStep (s : State M) (node : Nat) : Pc → Answer → Option (State M)
  | .start, answer => some (s.connect node .deliver answer)
  | .deliver, .ok =>
    match s.channel node with
    | [] => none
    | raddr :: rest =>
      some (({ s with channel := Function.update s.channel node rest }.setRoot node ⟨host, raddr⟩).goto node (.returned true))
  -- the loop around `TryDeliver` goes on
  | .deliver, .unavailable => some s
  | .deliver, .error _ => some (s.goto node (.returned false))
  | .loop _, _ | .send _ _, _ | .returned _, _ => none

/-- One call of a node, or what it does without one (which does not fail). -/
def exec (s : State M) (action : Action) : Option (State M) :=
  if action.node = host then hostStep host peers address made s (s.pcs host) action.answer
  else peerStep host s action.node (s.pcs action.node) action.answer

def initial : State M where
  pcs := fun _ => .start
  roots := fun _ => none
  shared := none
  channel := fun _ => []
  sent := fun _ => []

end Exec

variable {M : Type} {host : Nat} {peers : List Nat} {address : Nat} {made : M} {s s' : State M} {action : Action}

/-- `TestMap::Init`: the host's `InitList` makes the numbers below `LEN`. -/
def testMapInit (host : Nat) (peers : List Nat) (address : Nat) :
    State (List Nat) → Action → Option (State (List Nat)) :=
  exec host peers address (List.range 8)

/-! ## What a step does -/

inductive HostBranch (host : Nat) (peers : List Nat) (address : Nat) (made : M) (s : State M) :
    Pc → Answer → State M → Prop where
  | makes : HostBranch host peers address made s .start .ok
      { (s.goto host (.loop peers)).setRoot host ⟨host, address⟩ with shared := some made }
  | ends : HostBranch host peers address made s (.loop []) .ok (s.goto host (.returned true))
  | skips {rest : List Nat} : HostBranch host peers address made s (.loop (host :: rest)) .ok (s.goto host (.loop rest))
  | connects {peer : Nat} {rest : List Nat} : peer ≠ host →
      HostBranch host peers address made s (.loop (peer :: rest)) .ok (s.goto host (.send peer rest))
  | unconnected {peer : Nat} {rest : List Nat} {answer : Answer} : peer ≠ host → answer ≠ .ok →
      HostBranch host peers address made s (.loop (peer :: rest)) answer (s.goto host (.returned false))
  | sends {peer : Nat} {rest : List Nat} :
      HostBranch host peers address made s (.send peer rest) .ok ((s.push peer address).goto host (.loop rest))
  | arrives {peer : Nat} {rest : List Nat} :
      HostBranch host peers address made s (.send peer rest) (.error true) ((s.push peer address).goto host (.returned false))
  | unsent {peer : Nat} {rest : List Nat} {answer : Answer} : answer ≠ .ok → answer ≠ .error true →
      HostBranch host peers address made s (.send peer rest) answer (s.goto host (.returned false))

inductive PeerBranch (host : Nat) (s : State M) (node : Nat) : Pc → Answer → State M → Prop where
  | connects : PeerBranch host s node .start .ok (s.goto node .deliver)
  | unconnected {answer : Answer} : answer ≠ .ok → PeerBranch host s node .start answer (s.goto node (.returned false))
  | gets {raddr : Nat} {rest : List Nat} : s.channel node = raddr :: rest → PeerBranch host s node .deliver .ok
      (({ s with channel := Function.update s.channel node rest }.setRoot node ⟨host, raddr⟩).goto node (.returned true))
  | waits : PeerBranch host s node .deliver .unavailable s
  | fails {arrives : Bool} : PeerBranch host s node .deliver (.error arrives) (s.goto node (.returned false))

theorem hostStep_branch {pc : Pc} {answer : Answer} (stepped : hostStep host peers address made s pc answer = some s') :
    HostBranch host peers address made s pc answer s' := by
  cases pc with
  | start => cases answer <;> cases stepped; exact .makes
  | loop rest =>
    cases rest with
    | nil => cases answer <;> cases stepped; exact .ends
    | cons peer rest =>
      simp only [hostStep] at stepped
      split at stepped
      · next here =>
        subst here
        cases answer <;> cases stepped
        exact .skips
      · next other => cases answer <;> cases stepped <;> first | exact .connects other | exact .unconnected other (by simp)
  | send peer rest =>
    cases answer with
    | ok => cases stepped; exact .sends
    | unavailable => cases stepped; exact .unsent (by simp) (by simp)
    | error arrives => cases arrives <;> cases stepped <;> first | exact .arrives | exact .unsent (by simp) (by simp)
  | deliver | returned => cases stepped

theorem peerStep_branch {node : Nat} {pc : Pc} {answer : Answer} (stepped : peerStep host s node pc answer = some s') :
    PeerBranch host s node pc answer s' := by
  cases pc with
  | start => cases answer <;> cases stepped <;> first | exact .connects | exact .unconnected (by simp)
  | deliver =>
    cases answer with
    | ok =>
      simp only [peerStep] at stepped
      split at stepped <;> cases stepped
      next first => exact .gets first
    | unavailable => cases stepped; exact .waits
    | error => cases stepped; exact .fails
  | loop | send | returned => cases stepped

theorem exec_cases (enabled : exec host peers address made s action = some s') :
    (action.node = host ∧ HostBranch host peers address made s (s.pcs host) action.answer s') ∨
    (action.node ≠ host ∧ PeerBranch host s action.node (s.pcs action.node) action.answer s') := by
  unfold exec at enabled
  split at enabled
  · next here => exact .inl ⟨here, hostStep_branch enabled⟩
  · next other => exact .inr ⟨other, peerStep_branch enabled⟩

theorem goto_self (s : State M) (node : Nat) (pc : Pc) : (s.goto node pc).pcs node = pc := Function.update_self ..

theorem goto_of_ne (s : State M) {q node : Nat} (other : q ≠ node) (pc : Pc) : (s.goto node pc).pcs q = s.pcs q :=
  Function.update_of_ne other ..

theorem HostBranch.frame {pc : Pc} {answer : Answer} (branch : HostBranch host peers address made s pc answer s') {q : Nat}
    (other : q ≠ host) : s'.pcs q = s.pcs q := by
  cases branch <;> exact goto_of_ne _ other _

theorem PeerBranch.frame {node : Nat} {pc : Pc} {answer : Answer} (branch : PeerBranch host s node pc answer s') :
    s'.sent = s.sent ∧ s'.shared = s.shared ∧ ∀ q, q ≠ node → s'.pcs q = s.pcs q := by
  cases branch <;> exact ⟨rfl, rfl, fun q other => by first | rfl | exact goto_of_ne _ other _⟩

theorem HostBranch.shared {pc : Pc} {answer : Answer} (branch : HostBranch host peers address made s pc answer s') :
    (pc = .start ∧ s'.shared = some made) ∨ s'.shared = s.shared := by
  cases branch <;> first | exact .inl ⟨rfl, rfl⟩ | exact .inr rfl

theorem exec_shared (enabled : exec host peers address made s action = some s') :
    (s.pcs host = .start ∧ s'.shared = some made) ∨ s'.shared = s.shared := by
  rcases exec_cases enabled with ⟨_, branch⟩ | ⟨_, branch⟩
  · exact branch.shared
  · exact .inr branch.frame.2.1

theorem exec_frame (enabled : exec host peers address made s action = some s') {q : Nat} (other : q ≠ action.node) :
    s'.pcs q = s.pcs q := by
  rcases exec_cases enabled with ⟨here, branch⟩ | ⟨_, branch⟩
  · exact branch.frame (here ▸ other)
  · exact branch.frame.2.2 q other

theorem not_returned (enabled : exec host peers address made s action = some s') (ok : Bool) :
    s.pcs action.node ≠ .returned ok := by
  intro returned
  rcases exec_cases enabled with ⟨here, branch⟩ | ⟨_, branch⟩
  · rw [← here, returned] at branch
    cases branch
  · rw [returned] at branch
    cases branch

def State.map {N : Type} (view : M → N) (s : State M) : State N := { s with shared := s.shared.map view }

/-- `Init` makes the structure and does not look at it. -/
theorem exec_map {N : Type} (view : M → N) (made : M) : exec host peers address (view made) (s.map view) action =
    (exec host peers address made s action).map (State.map view) := by
  unfold exec
  change (if action.node = host then hostStep host peers address (view made) (s.map view) (s.pcs host) action.answer
    else peerStep host (s.map view) action.node (s.pcs action.node) action.answer) = _
  split
  · cases s.pcs host with
    | start | send | deliver | returned => cases action.answer <;> first | rfl | (next arrives => cases arrives <;> rfl)
    | loop rest =>
      cases rest with
      | nil => cases action.answer <;> rfl
      | cons peer rest =>
        simp only [hostStep]
        split <;> cases action.answer <;> rfl
  · cases s.pcs action.node with
    | start | loop | send | returned => cases action.answer <;> rfl
    | deliver =>
      cases action.answer with
      | ok =>
        simp only [peerStep, State.map]
        cases s.channel action.node <;> rfl
      | unavailable | error => rfl

/-! ## What holds in every run -/

/-- The address was sent to each node as often as it stands in `served`. -/
def Served (host address : Nat) (served : List Nat) (s : State M) : Prop :=
  ∀ q, q ≠ host → s.sent q = List.replicate (served.count q) address

def HostInv (host : Nat) (peers : List Nat) (address : Nat) (s : State M) : Pc → Prop
  | .start => Served host address [] s ∧ s.shared = none
  | .loop rest => ∃ served, peers = served ++ rest ∧ Served host address served s ∧ s.shared ≠ none
  | .send peer rest =>
    ∃ served, peers = served ++ peer :: rest ∧ peer ≠ host ∧ Served host address served s ∧ s.shared ≠ none
  | .deliver => False
  | .returned true => Served host address peers s ∧ s.shared ≠ none
  | .returned false => s.shared ≠ none ∧ ∃ served peer rest, peers = served ++ peer :: rest ∧ peer ≠ host ∧
      (Served host address served s ∨ Served host address (served ++ [peer]) s)

def PeerInv (host address : Nat) (s : State M) (q : Nat) : Pc → Prop
  | .start | .deliver | .returned false => s.sent q = s.channel q ∧ s.roots q = none
  | .returned true => s.sent q = address :: s.channel q ∧ s.roots q = some ⟨host, address⟩
  | .loop _ | .send _ _ => False

structure Inv (host : Nat) (peers : List Nat) (address : Nat) (s : State M) : Prop where
  leader : HostInv host peers address s (s.pcs host)
  others : ∀ q, q ≠ host → PeerInv host address s q (s.pcs q)
  made : s.roots host = if s.shared.isSome then some ⟨host, address⟩ else none

theorem Served.push {served : List Nat} {peer : Nat} (before : Served host address served s) :
    Served host address (served ++ [peer]) (s.push peer address) := by
  intro q other
  by_cases here : q = peer
  · subst here
    simp [State.push, before q other, List.replicate_succ']
  · have absent : List.count q [peer] = 0 := List.count_eq_zero.mpr (by simpa using here)
    simp [State.push, Function.update_of_ne here, before q other, List.count_append, absent]

theorem PeerInv.push {q : Nat} {pc : Pc} (own : PeerInv host address s q pc) (peer : Nat) :
    PeerInv host address (s.push peer address) q pc := by
  by_cases here : q = peer
  · subst here
    unfold PeerInv at own ⊢
    simp only [State.push, Function.update_self]
    split at own <;> simp_all
  · unfold PeerInv at own ⊢
    simp only [State.push, Function.update_of_ne here]
    exact own

theorem PeerInv.setRoot {q : Nat} {pc : Pc} (own : PeerInv host address s q pc) {node : Nat} (other : q ≠ node)
    (root : RemotePtr) : PeerInv host address (s.setRoot node root) q pc := by
  unfold PeerInv at own ⊢
  simp only [State.setRoot, Function.update_of_ne other]
  exact own

theorem Inv.start (host : Nat) (peers : List Nat) (address : Nat) : Inv host peers address (initial : State M) where
  leader := ⟨fun _ _ => rfl, rfl⟩
  others _ _ := ⟨rfl, rfl⟩
  made := rfl

namespace Inv

theorem host_goto (inv : Inv host peers address s) {pc : Pc} {s₁ : State M} (leader : HostInv host peers address s₁ pc)
    (others : ∀ q, q ≠ host → PeerInv host address s₁ q (s.pcs q)) (pcs : s₁.pcs = s.pcs) (roots : s₁.roots = s.roots)
    (shared : s₁.shared = s.shared) : Inv host peers address (s₁.goto host pc) where
  leader := by
    rw [goto_self]
    exact leader
  others q other := by
    rw [goto_of_ne s₁ other, pcs]
    exact others q other
  made := by
    change s₁.roots host = if s₁.shared.isSome then _ else _
    rw [roots, shared]
    exact inv.made

theorem peer_goto (inv : Inv host peers address s) {q : Nat} (other : q ≠ host) {pc : Pc} {s₁ : State M}
    (own : PeerInv host address s₁ q pc) (rest : ∀ q', q' ≠ q → s₁.channel q' = s.channel q' ∧ s₁.roots q' = s.roots q')
    (pcs : s₁.pcs = s.pcs) (sent : s₁.sent = s.sent) (shared : s₁.shared = s.shared) :
    Inv host peers address (s₁.goto q pc) where
  leader := by
    rw [goto_of_ne s₁ other.symm, pcs]
    have before := inv.leader
    unfold HostInv Served at before ⊢
    simp only [State.goto, sent, shared]
    exact before
  others q' other' := by
    by_cases here : q' = q
    · subst here
      rw [goto_self]
      exact own
    · have before := inv.others q' other'
      rw [goto_of_ne s₁ here, pcs]
      unfold PeerInv at before ⊢
      simp only [State.goto, sent, rest q' here]
      exact before
  made := by
    change s₁.roots host = if s₁.shared.isSome then _ else _
    rw [(rest host other.symm).2, shared]
    exact inv.made

theorem sent_address (inv : Inv host peers address s) {q raddr : Nat} (other : q ≠ host) (sent : raddr ∈ s.sent q) :
    raddr = address := by
  have served : ∃ served, Served host address served s := by
    have leader := inv.leader
    unfold HostInv at leader
    split at leader
    · exact ⟨_, leader.1⟩
    · obtain ⟨served, _, sent, _⟩ := leader
      exact ⟨served, sent⟩
    · obtain ⟨served, _, _, sent, _⟩ := leader
      exact ⟨served, sent⟩
    · exact leader.elim
    · exact ⟨_, leader.1⟩
    · obtain ⟨_, served, peer, _, _, _, sent | sent⟩ := leader
      · exact ⟨served, sent⟩
      · exact ⟨served ++ [peer], sent⟩
  obtain ⟨served, all⟩ := served
  rw [all q other] at sent
  exact List.eq_of_mem_replicate sent

theorem next (inv : Inv host peers address s) (enabled : exec host peers address made s action = some s') :
    Inv host peers address s' := by
  have leader := inv.leader
  rcases exec_cases enabled with ⟨_, branch⟩ | ⟨other, branch⟩
  · generalize s.pcs host = pc at branch leader
    generalize action.answer = answer at branch
    cases branch with
    | makes =>
      refine ⟨?_, fun q other => ?_, ?_⟩
      · exact (goto_self s host (.loop peers)).symm ▸ ⟨[], rfl, leader.1, by simp⟩
      · change PeerInv host address (s.setRoot host ⟨host, address⟩) q ((s.goto host (.loop peers)).pcs q)
        rw [goto_of_ne s other]
        exact (inv.others q other).setRoot other _
      · exact Function.update_self ..
    | ends =>
      obtain ⟨served, rfl, sent, made⟩ := leader
      rw [List.append_nil] at inv ⊢
      exact inv.host_goto ⟨sent, made⟩ inv.others rfl rfl rfl
    | @skips rest =>
      obtain ⟨served, rfl, sent, made⟩ := leader
      refine inv.host_goto ⟨served ++ [host], by simp, fun q other => ?_, made⟩ inv.others rfl rfl rfl
      have absent : List.count q [host] = 0 := List.count_eq_zero.mpr (by simpa using other)
      rw [sent q other, List.count_append, absent, Nat.add_zero]
    | connects other =>
      obtain ⟨served, rfl, sent, made⟩ := leader
      exact inv.host_goto ⟨served, rfl, other, sent, made⟩ inv.others rfl rfl rfl
    | unconnected other =>
      obtain ⟨served, rfl, sent, made⟩ := leader
      exact inv.host_goto ⟨made, served, _, _, rfl, other, .inl sent⟩ inv.others rfl rfl rfl
    | sends =>
      obtain ⟨served, rfl, other, sent, made⟩ := leader
      exact inv.host_goto ⟨served ++ [_], by simp, sent.push, made⟩ (fun q other => (inv.others q other).push _) rfl rfl rfl
    | arrives =>
      obtain ⟨served, rfl, other, sent, made⟩ := leader
      exact inv.host_goto ⟨made, served, _, _, rfl, other, .inr sent.push⟩ (fun q other => (inv.others q other).push _)
        rfl rfl rfl
    | unsent =>
      obtain ⟨served, rfl, other, sent, made⟩ := leader
      exact inv.host_goto ⟨made, served, _, _, rfl, other, .inl sent⟩ inv.others rfl rfl rfl
  · have own := inv.others _ other
    generalize s.pcs action.node = pc at branch own
    generalize action.answer = answer at branch
    cases branch with
    | connects | unconnected | fails => exact inv.peer_goto other own (fun _ _ => ⟨rfl, rfl⟩) rfl rfl rfl
    | waits => exact inv
    | @gets raddr rest first =>
      obtain ⟨sent, _⟩ := own
      rw [first] at sent
      obtain rfl := inv.sent_address other (sent ▸ List.mem_cons_self)
      refine inv.peer_goto other ⟨sent.trans ?_, Function.update_self ..⟩ (fun q' other' => ?_) rfl rfl rfl
      · simp [State.setRoot]
      · exact ⟨Function.update_of_ne other' .., Function.update_of_ne other' ..⟩

theorem reachable (run : Reachable (exec host peers address made) initial s) : Inv host peers address s :=
  run.invariant (.start host peers address) fun _ _ _ inv _ enabled => inv.next enabled

/-- Every node whose `Init` has returned OK has the root pointer of the host's structure, which has been made. -/
theorem root_of_returned (inv : Inv host peers address s) {q : Nat} (returned : s.pcs q = .returned true) :
    s.roots q = some ⟨host, address⟩ ∧ s.shared.isSome := by
  have leader := inv.leader
  by_cases here : q = host
  · subst here
    rw [returned] at leader
    have made := Option.isSome_iff_ne_none.mpr leader.2
    exact ⟨by rw [inv.made, if_pos made], made⟩
  · have own := inv.others q here
    rw [returned] at own
    refine ⟨own.2, Option.isSome_iff_ne_none.mpr fun unmade => ?_⟩
    -- nothing is sent before the structure is made
    have nothing : s.sent q = [] := by
      unfold HostInv at leader
      split at leader
      · exact leader.1 q here
      · exact absurd unmade leader.choose_spec.2.2
      · exact absurd unmade leader.choose_spec.2.2.2
      · exact leader.elim
      · exact absurd unmade leader.2
      · exact absurd unmade leader.1
    rw [own.1] at nothing
    cases nothing

end Inv

/-! ## Who gets the address -/

theorem returned_stays {q : Nat} {ok : Bool} (run : Reachable (exec host peers address made) s s')
    (returned : s.pcs q = .returned ok) : s'.pcs q = .returned ok := by
  refine run.invariant (P := fun s => s.pcs q = .returned ok) returned ?_
  intro t action u before _ enabled
  rw [exec_frame enabled]
  · exact before
  · rintro rfl
    exact not_returned enabled ok before

theorem sent_stays {ok : Bool} (run : Reachable (exec host peers address made) s s') (returned : s.pcs host = .returned ok) :
    s'.sent = s.sent := by
  have both : s'.pcs host = .returned ok ∧ s'.sent = s.sent := by
    refine run.invariant (P := fun t => t.pcs host = .returned ok ∧ t.sent = s.sent) ⟨returned, rfl⟩ ?_
    intro t action u before _ enabled
    refine ⟨returned_stays (Steps.one enabled) before.1, ?_⟩
    rcases exec_cases enabled with ⟨here, _⟩ | ⟨_, branch⟩
    · exact absurd before.1 (here ▸ not_returned enabled ok)
    · exact branch.frame.1.trans before.2
  exact both.2

theorem can_return {q : Nat} (inv : Inv host peers address s) (other : q ≠ host) (sent : s.sent q ≠ [])
    (open_ : s.pcs q ≠ .returned false) :
    ∃ s', Reachable (exec host peers address made) s s' ∧ s'.pcs q = .returned true := by
  have delivers : ∀ {t : State M}, t.pcs q = .deliver → t.channel q ≠ [] →
      ∃ s', Reachable (exec host peers address made) t s' ∧ s'.pcs q = .returned true := by
    intro t at_ some
    obtain ⟨raddr, rest, first⟩ := List.exists_cons_of_ne_nil some
    have enabled : exec host peers address made t ⟨q, .ok⟩ = Option.some
        (({ t with channel := Function.update t.channel q rest }.setRoot q ⟨host, raddr⟩).goto q (.returned true)) := by
      simp only [exec, if_neg other, at_, peerStep, first]
    exact ⟨_, Steps.one enabled, goto_self _ q (.returned true)⟩
  have own := inv.others q other
  cases at_ : s.pcs q with
  | start =>
    rw [at_] at own
    have enabled : exec host peers address made s ⟨q, .ok⟩ = some (s.goto q .deliver) := by
      simp only [exec, if_neg other, at_, peerStep, State.connect]
    obtain ⟨s', run, last⟩ := delivers (goto_self s q .deliver) (own.1 ▸ sent)
    exact ⟨s', (Steps.one enabled).trans run, last⟩
  | deliver =>
    rw [at_] at own
    exact delivers at_ (own.1 ▸ sent)
  | returned ok =>
    cases ok with
    | true => exact ⟨s, .refl s, at_⟩
    | false => exact absurd at_ open_
  | loop | send =>
    rw [at_] at own
    exact own.elim

/-- The peers that a host whose `Init` has returned has sent its address to: all of
them, or those before the one a call failed for, and perhaps that one. -/
def ServedBy (host : Nat) (peers served : List Nat) (ok : Bool) : Prop :=
  if ok = true then served = peers
  else ∃ before peer rest, peers = before ++ peer :: rest ∧ peer ≠ host ∧ (served = before ∨ served = before ++ [peer])

/-- When the host's `Init` has returned, each other node was sent the address as often as
it stands among the peers served, and its `Init` can return OK just if it was served. -/
theorem served_iff {ok : Bool} (run : Reachable (exec host peers address made) initial s)
    (returned : s.pcs host = .returned ok) :
    ∃ served, ServedBy host peers served ok ∧ ∀ q, q ≠ host → s.sent q = List.replicate (served.count q) address ∧
      ((∃ s', Reachable (exec host peers address made) s s' ∧ s'.pcs q = .returned true) ↔
        q ∈ served ∧ s.pcs q ≠ .returned false) := by
  have inv := Inv.reachable run
  obtain ⟨served, which, sent⟩ : ∃ served, ServedBy host peers served ok ∧ Served host address served s := by
    have leader := inv.leader
    rw [returned] at leader
    cases ok with
    | true => exact ⟨peers, rfl, leader.1⟩
    | false =>
      obtain ⟨_, before, peer, rest, split, other, sent | sent⟩ := leader
      · exact ⟨before, ⟨before, peer, rest, split, other, .inl rfl⟩, sent⟩
      · exact ⟨before ++ [peer], ⟨before, peer, rest, split, other, .inr rfl⟩, sent⟩
  have sent_iff : ∀ q, q ≠ host → (s.sent q ≠ [] ↔ q ∈ served) := by
    intro q other
    rw [sent q other, ← List.count_pos_iff, Nat.pos_iff_ne_zero]
    simp
  refine ⟨served, which, fun q other => ⟨sent q other, ?_, ?_⟩⟩
  · rintro ⟨s', run', last⟩
    constructor
    · rw [← sent_iff q other, ← sent_stays run' returned]
      have own := (Inv.reachable (run.trans run')).others q other
      rw [last] at own
      simp [own.1]
    · intro failed
      have stays := returned_stays run' failed
      rw [last] at stays
      cases stays
  · rintro ⟨member, open_⟩
    exact can_return inv other ((sent_iff q other).mpr member) open_

/-- The host's second `Send` fails: node 1 has got the address and node 2 never gets it. -/
theorem served_iff_sendFails : ∃ s : State (List Nat), s.pcs 0 = .returned false ∧
    (∃ s', Reachable (testMapInit 0 [0, 1, 2] 1) s s' ∧ s'.pcs 1 = .returned true) ∧
    ¬ ∃ s', Reachable (testMapInit 0 [0, 1, 2] 1) s s' ∧ s'.pcs 2 = .returned true := by
  have ran : (runAll (testMapInit 0 [0, 1, 2] 1) initial
      [⟨0, .ok⟩, ⟨2, .ok⟩, ⟨0, .ok⟩, ⟨0, .ok⟩, ⟨2, .unavailable⟩, ⟨0, .ok⟩, ⟨0, .ok⟩, ⟨0, .error false⟩]).map
      (fun s => (s.pcs 0, s.pcs 1, s.sent 1, s.sent 2)) = some (.returned false, .start, [1], []) := by decide
  obtain ⟨s, final, shown⟩ := Option.map_eq_some_iff.mp ran
  simp only [Prod.mk.injEq] at shown
  obtain ⟨ended, first, sent₁, sent₂⟩ := shown
  obtain ⟨served, _, all⟩ := served_iff (reachable_of_runAll _ final) ended
  refine ⟨s, ended, (all 1 (by decide)).2.mpr ⟨?_, by simp [first]⟩, fun gets => ?_⟩
  · have count := (all 1 (by decide)).1
    rw [sent₁] at count
    exact List.count_pos_iff.mp (Nat.pos_of_ne_zero fun none => by rw [none] at count; cases count)
  · have listed := List.count_pos_iff.mpr ((all 2 (by decide)).2.mp gets).1
    have count := (all 2 (by decide)).1
    rw [sent₂] at count
    have none := (List.replicate_eq_nil_iff 1).mp count.symm
    omega

/-! ## Runs come to an end -/

/-- The calls a node has still to make, but for those of `TryDeliver` that find nothing. -/
def Pc.left (peers : List Nat) (isHost : Bool) : Pc → Nat
  | .start => if isHost then 2 * peers.length + 2 else 2
  | .loop rest => 2 * rest.length + 1
  | .send _ rest => 2 * rest.length + 2
  | .deliver => 1
  | .returned _ => 0

def State.left (host : Nat) (peers : List Nat) (s : State M) : Nat :=
  ∑ q ∈ (host :: peers).toFinset, (s.pcs q).left peers (decide (q = host))

def Waits (host : Nat) (s : State M) (action : Action) : Prop :=
  action.node ≠ host ∧ s.pcs action.node = .deliver ∧ action.answer = .unavailable

instance (host : Nat) (s : State M) (action : Action) : Decidable (Waits host s action) :=
  inferInstanceAs (Decidable (_ ∧ _))

def moves (host : Nat) (peers : List Nat) (address : Nat) (made : M) (s : State M) (action : Action) : Option (State M) :=
  if action.node ∈ host :: peers ∧ ¬ Waits host s action then exec host peers address made s action else none

theorem left_goto (s : State M) {q : Nat} (member : q ∈ host :: peers) {pc : Pc}
    (less : pc.left peers (decide (q = host)) < (s.pcs q).left peers (decide (q = host))) :
    (s.goto q pc).left host peers < s.left host peers :=
  sum_update_lt (fun q (pc : Pc) => pc.left peers (decide (q = host))) (List.mem_toFinset.mpr member) less

theorem lowers (host : Nat) (peers : List Nat) (address : Nat) (made : M) :
    Lowers (moves host peers address made) (fun _ => True) (State.left host peers) where
  keep _ _ _ _ _ := trivial
  lower s action t _ moved := by
    obtain ⟨⟨member, busy⟩, enabled⟩ := Option.ite_none_right_eq_some.mp moved
    -- where a node goes on counts, not what it changes otherwise
    have closer : ∀ {s₁ : State M} {pc : Pc}, s₁.pcs = s.pcs → pc.left peers (decide (action.node = host)) <
        (s.pcs action.node).left peers (decide (action.node = host)) →
        (s₁.goto action.node pc).left host peers < s.left host peers := by
      intro s₁ pc pcs less
      have stays : s₁.left host peers = s.left host peers := by
        unfold State.left
        rw [pcs]
      rw [← stays]
      refine left_goto s₁ member ?_
      rw [pcs]
      exact less
    rcases exec_cases enabled with ⟨here, branch⟩ | ⟨other, branch⟩
    · rw [here, decide_eq_true rfl] at closer
      generalize s.pcs host = pc at branch closer
      generalize action.answer = answer at branch
      cases branch <;> exact closer rfl (by simp only [Pc.left, List.length_cons, if_true]; omega)
    · rw [decide_eq_false other] at closer
      cases at_ : s.pcs action.node with
      | start =>
        rw [at_] at branch closer
        generalize action.answer = answer at branch
        cases branch <;> exact closer rfl (by simp [Pc.left])
      | deliver =>
        have waits : action.answer ≠ .unavailable := fun waits => busy ⟨other, at_, waits⟩
        rw [at_] at branch closer
        generalize action.answer = answer at branch waits
        cases branch with
        | waits => exact absurd rfl waits
        | gets | fails => exact closer rfl (by simp [Pc.left])
      | loop | send | returned =>
        rw [at_] at branch
        cases branch

/-- No call fails, but `TryDeliver` may find nothing. -/
def Reliable (host : Nat) (s : State M) (action : Action) : Prop := action.answer = .ok ∨ Waits host s action

instance (host : Nat) (s : State M) (action : Action) : Decidable (Reliable host s action) :=
  inferInstanceAs (Decidable (_ ∨ _))

theorem never_fails (run : Steps (exec host peers address made) (Reliable host) initial s) (q : Nat) :
    s.pcs q ≠ .returned false := by
  refine run.invariant (P := fun s => s.pcs q ≠ .returned false) (by simp [initial]) ?_
  intro t action u before reliable enabled
  have goes : ∀ {node : Nat} {t₁ : State M} {pc : Pc},
      pc ≠ .returned false → (t₁.goto node pc).pcs node ≠ .returned false := by
    intro node t₁ pc fine
    rw [goto_self]
    exact fine
  by_cases mine : q = action.node
  · subst mine
    rcases exec_cases enabled with ⟨here, branch⟩ | ⟨other, branch⟩
    · have ok : action.answer = .ok := reliable.resolve_right fun waits => waits.1 here
      rw [ok] at branch
      rw [here]
      generalize t.pcs host = pc at branch
      cases branch with
      | unconnected _ failed | unsent failed _ => exact absurd rfl failed
      | makes => exact goes (by simp)
      | ends | skips | connects | sends => exact goes (by simp)
    · rcases reliable with ok | ⟨_, at_, nothing⟩
      · rw [ok] at branch
        generalize t.pcs action.node = pc at branch
        cases branch with
        | unconnected failed => exact absurd rfl failed
        | connects | gets => exact goes (by simp)
      · rw [at_, nothing] at branch
        cases branch
        exact before
  · rw [exec_frame enabled mine]
    exact before

/-- As long as the host or a peer has not returned, some node can go on. -/
theorem some_moves (inv : Inv host peers address s) (fine : ∀ q, s.pcs q ≠ .returned false) {q : Nat}
    (member : q ∈ host :: peers) (busy : s.pcs q ≠ .returned true) :
    ∃ q ∈ host :: peers, (exec host peers address made s ⟨q, .ok⟩).isSome := by
  have leader := inv.leader
  by_cases ended : s.pcs host = .returned true
  · -- all messages have been sent
    rw [ended] at leader
    have other : q ≠ host := fun here => busy (here ▸ ended)
    have own := inv.others q other
    refine ⟨q, member, ?_⟩
    unfold exec
    rw [if_neg other]
    cases at_ : s.pcs q with
    | start => rfl
    | deliver =>
      have some : s.channel q ≠ [] := by
        rw [at_] at own
        have listed : 0 < peers.count q := List.count_pos_iff.mpr ((List.mem_cons.mp member).resolve_left other)
        rw [← own.1, leader.1 q other]
        simp
        omega
      obtain ⟨raddr, rest, first⟩ := List.exists_cons_of_ne_nil some
      simp only [peerStep, first]
      rfl
    | returned ok =>
      cases ok with
      | true => exact absurd at_ busy
      | false => exact absurd at_ (fine q)
    | loop | send =>
      rw [at_] at own
      exact own.elim
  · refine ⟨host, List.mem_cons_self, ?_⟩
    unfold exec
    rw [if_pos rfl]
    cases at_ : s.pcs host with
    | start => rfl
    | loop rest =>
      cases rest with
      | nil => rfl
      | cons peer rest =>
        simp only [hostStep]
        split <;> rfl
    | send => rfl
    | deliver =>
      rw [at_] at leader
      exact leader.elim
    | returned ok =>
      cases ok with
      | true => exact absurd at_ ended
      | false => exact absurd at_ (fine host)

theorem left_initial (host : Nat) (peers : List Nat) : (initial : State M).left host peers ≤ 4 * peers.length + 2 := by
  have each : ∀ q, (Pc.start).left peers (decide (q = host)) = 2 + if q = host then 2 * peers.length else 0 := by
    intro q
    by_cases here : q = host
    · simp [Pc.left, here, Nat.add_comm]
    · simp [Pc.left, here]
  have nodes : (host :: peers).toFinset.card ≤ peers.length + 1 := (host :: peers).toFinset_card_le
  change ∑ q ∈ (host :: peers).toFinset, (Pc.start).left peers (decide (q = host)) ≤ _
  rw [Finset.sum_congr rfl fun q _ => each q, Finset.sum_add_distrib, Finset.sum_const, Finset.sum_ite_eq' _ host,
    if_pos (by simp), Nat.nsmul_eq_mul]
  omega

/-- The host and the peers make at most `4 * peers.length + 2` steps, but for those that
wait. Where no call fails, some node can go on until all have returned OK, and from
wherever a run stands all can still come to return OK. -/
theorem completes (run : Steps (exec host peers address made) (Reliable host) initial s) :
    (∀ schedule s', runAll (moves host peers address made) initial schedule = some s' →
      schedule.length ≤ 4 * peers.length + 2) ∧
    ((∀ q ∈ host :: peers, s.pcs q = .returned true) ∨
      ∃ q ∈ host :: peers, (exec host peers address made s ⟨q, .ok⟩).isSome) ∧
    ∃ s', Steps (exec host peers address made) (Reliable host) s s' ∧ ∀ q ∈ host :: peers, s'.pcs q = .returned true := by
  have ends : ∀ {s : State M}, Steps (exec host peers address made) (Reliable host) initial s →
      (∀ q ∈ host :: peers, s.pcs q = .returned true) ∨
        ∃ q ∈ host :: peers, (exec host peers address made s ⟨q, .ok⟩).isSome := by
    intro s run
    by_cases all : ∀ q ∈ host :: peers, s.pcs q = .returned true
    · exact .inl all
    · push Not at all
      obtain ⟨q, member, busy⟩ := all
      exact .inr (some_moves (Inv.reachable run.reachable) (never_fails run) member busy)
  refine ⟨fun schedule s' ran => ?_, ends run, ?_⟩
  · have short := (lowers host peers address made).length_le schedule trivial ran
    have start := left_initial (M := M) host peers
    omega
  · -- the steps with answer OK alone come to an end
    have finite : Lowers (fun s action => if action.answer = .ok then moves host peers address made s action else none)
        (fun _ => True) (State.left host peers) :=
      ⟨fun _ _ _ _ _ => trivial, fun s action t _ moved =>
        (lowers host peers address made).lower s action t trivial (Option.ite_none_right_eq_some.mp moved).2⟩
    obtain ⟨s', further, stuck⟩ := finite.exists_stuck (s := s) trivial
    have reliable : Steps (exec host peers address made) (Reliable host) s s' := by
      refine further.simulate id fun t action u _ moved => ?_
      obtain ⟨ok, moved⟩ := Option.ite_none_right_eq_some.mp moved
      exact .step action (.refl t) (.inl ok) (Option.ite_none_right_eq_some.mp moved).2
    refine ⟨s', reliable, (ends (run.trans reliable)).resolve_right ?_⟩
    rintro ⟨q, member, goes⟩
    have none := stuck ⟨q, .ok⟩
    dsimp only at none
    rw [if_pos rfl, moves, if_pos ⟨member, fun waits => by cases waits.2.2⟩] at none
    rw [none] at goes
    cases goes

/-- Node 2 asks twice before the host has made anything. -/
theorem completes_asksEarly : ∃ s : State (List Nat), s.pcs 0 = .start ∧ s.pcs 2 = .deliver ∧
    ∃ s', Steps (testMapInit 0 [0, 1, 2] 1) (Reliable 0) s s' ∧ ∀ q ∈ [0, 0, 1, 2], s'.pcs q = .returned true := by
  have ran : (runAll (fun s action => if Reliable 0 s action then testMapInit 0 [0, 1, 2] 1 s action else none) initial
      [⟨2, .ok⟩, ⟨2, .unavailable⟩, ⟨2, .unavailable⟩]).map (fun s => (s.pcs 0, s.pcs 2)) =
        some (.start, .deliver) := by decide
  obtain ⟨s, final, shown⟩ := Option.map_eq_some_iff.mp ran
  simp only [Prod.mk.injEq] at shown
  exact ⟨s, shown.1, shown.2, (completes (steps_of_runAll _ final)).2.2⟩

end RdmaIht.RootExchange
