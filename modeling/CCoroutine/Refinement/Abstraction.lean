import CCoroutine.Ideal.Invariants
import CCoroutine.Scheduler.Calls

/-!
# Refinement — Abstraction

The ideal system a state stands for (`State.abs`): coroutines by id, whatever their address.  An
unfreed coroutine is the record at its address; a freed one is the record `co_free` released,
whether or not `calloc` has since handed out its address again.

`Addressed` is what makes this well defined: an unfreed coroutine sits in `S.all` at its id, and
the records that are allocated are exactly the unfreed coroutines.  An address may occur in
`S.all` several times, but at most one of the ids it stands for is unfreed (`idOf_inj`).
-/

namespace CCoroutine
open CCoroutine.Ideal (Task Sys Ev)

/-- The same control point, with the owners of the stacks renamed. -/
def Ctl.map {α β : Type} (f : α → β) : Ctl α → Ctl β
  | .user who => .user (who.map f)
  | .loop who => .loop (who.map f)

def Ctx.isTrampoline : Ctx → Bool
  | .trampoline _ => true
  | _ => false

/-- A record as a task.  It has not been started when it is ready and its context is still the
one `co_create` built. -/
def Coroutine.task {Fn Arg : Type} (idOf : Addr → ℕ) (freed : Bool) (r : Coroutine Fn Arg) :
    Task Fn Arg where
  state := r.state
  awaiting := r.awaiting.map idOf
  fn := r.fn
  arg := r.arg
  started := !(r.state = .ready && r.ctx.isTrampoline)
  freed := freed

theorem Coroutine.task_congr {Fn Arg : Type} {f g : Addr → ℕ} {r : Coroutine Fn Arg}
    (freed : Bool) (h : ∀ a, r.awaiting = some a → f a = g a) :
    r.task f freed = r.task g freed := by
  have : r.awaiting.map f = r.awaiting.map g := Option.map_congr fun a ha => h a ha
  simp only [Coroutine.task, this]

namespace State

variable {Fn Arg : Type}

def idOf (s : State Fn Arg) (a : Addr) : ℕ := (s.mem a).id

/-- `S.all[k - 1]`: the address `co_create` returned for the coroutine with id `k`. -/
def addrOf (s : State Fn Arg) (k : ℕ) : Option Addr :=
  if k = 0 then none else s.all[k - 1]?

/-- The task with id `k`. -/
def taskAt (s : State Fn Arg) (k : ℕ) : Option (Task Fn Arg) :=
  match s.released k with
  | some r => some (r.task s.idOf true)
  | none => (s.addrOf k).map fun a => (s.mem a).task s.idOf false

/-- The ideal system that `s` implements. -/
def abs (s : State Fn Arg) : Sys Fn Arg where
  count := s.all.length
  task := s.taskAt
  queue := s.runQueue.map s.idOf
  ctl := s.ctl.map s.idOf
  frames := s.frames.map (Option.map s.idOf)

/-- Ids and addresses. -/
structure Addressed (s : State Fn Arg) : Prop where
  registered : ∀ a, s.live a = true → s.addrOf (s.idOf a) = some a
  unreleased : ∀ k a, s.addrOf k = some a →
    (s.released k = none ↔ s.live a = true ∧ s.idOf a = k)
  released : ∀ k r, s.released k = some r → s.addrOf k ≠ none ∧ r.awaiting = none

theorem addrOf_ne_none_iff {s : State Fn Arg} {k : ℕ} :
    s.addrOf k ≠ none ↔ 1 ≤ k ∧ k ≤ s.all.length := by
  unfold addrOf
  split
  · simp; omega
  · simp; omega

theorem addrOf_mem {s : State Fn Arg} {k : ℕ} {a : Addr} (h : s.addrOf k = some a) :
    a ∈ s.all := by
  unfold addrOf at h
  split at h
  · cases h
  · exact List.mem_of_getElem? h

/-- Records change, but no id does. -/
theorem taskAt_of_idOf {s s' : State Fn Arg} (hid : s'.idOf = s.idOf) (hall : s'.all = s.all)
    (hrel : s'.released = s.released) (k : ℕ) :
    s'.taskAt k = match s.released k with
      | some r => some (r.task s.idOf true)
      | none => (s.addrOf k).map fun a => (s'.mem a).task s.idOf false := by
  have haddr : s'.addrOf k = s.addrOf k := by simp only [addrOf, hall]
  rw [taskAt, hrel, hid, haddr]

theorem idOf_update {s s' : State Fn Arg} {a : Addr} {r : Coroutine Fn Arg}
    (hmem : s'.mem = Function.update s.mem a r) (hr : r.id = s.idOf a) : s'.idOf = s.idOf := by
  funext b
  by_cases e : b = a
  · subst e; simp [idOf, hmem, hr]
  · simp [idOf, hmem, e]

namespace Addressed

variable {s s' : State Fn Arg}

/-- Ids and addresses stay as they are when no record is created or freed. -/
theorem congr (h : s.Addressed) (hall : s'.all = s.all) (hlive : s'.live = s.live)
    (hrel : s'.released = s.released) (hid : s'.idOf = s.idOf) : s'.Addressed := by
  have haddr : s'.addrOf = s.addrOf := by funext k; simp only [addrOf, hall]
  refine ⟨fun a ha => ?_, fun k a ha => ?_, fun k r hr => ?_⟩
  · rw [haddr, hid]; exact h.registered a (hlive ▸ ha)
  · rw [hrel, hlive, hid]; exact h.unreleased k a (haddr ▸ ha)
  · rw [haddr]; exact h.released k r (hrel ▸ hr)

theorem released_none (h : s.Addressed) {a : Addr} (ha : s.live a = true) :
    s.released (s.idOf a) = none :=
  (h.unreleased _ a (h.registered a ha)).mpr ⟨ha, rfl⟩

theorem mem_all (h : s.Addressed) {a : Addr} (ha : s.live a = true) : a ∈ s.all :=
  addrOf_mem (h.registered a ha)

/-- An id names one unfreed coroutine. -/
theorem idOf_inj (h : s.Addressed) {a b : Addr} (ha : s.live a = true) (hb : s.live b = true)
    (e : s.idOf a = s.idOf b) : a = b := by
  have := h.registered a ha
  rw [e, h.registered b hb] at this
  exact (Option.some.inj this).symm

theorem taskAt_live (h : s.Addressed) {a : Addr} (ha : s.live a = true) :
    s.taskAt (s.idOf a) = some ((s.mem a).task s.idOf false) := by
  rw [taskAt, h.released_none ha, h.registered a ha]
  rfl

/-- A task is a released record, or the record of an unfreed coroutine. -/
theorem taskAt_cases (h : s.Addressed) {k : ℕ} {t : Task Fn Arg} (ht : s.taskAt k = some t) :
    (∃ r, s.released k = some r ∧ t = r.task s.idOf true) ∨
      ∃ a, s.live a = true ∧ s.idOf a = k ∧ t = (s.mem a).task s.idOf false := by
  cases hr : s.released k with
  | some r =>
      rw [taskAt, hr] at ht
      exact .inl ⟨r, rfl, (Option.some.inj ht).symm⟩
  | none =>
      rw [taskAt, hr] at ht
      obtain ⟨a, ha, rfl⟩ := Option.map_eq_some_iff.mp ht
      obtain ⟨hl, hk⟩ := (h.unreleased k a ha).mp hr
      exact .inr ⟨a, hl, hk, rfl⟩

/-! ### The tasks after a change of the memory -/

/-- One unfreed coroutine changes: its task changes. -/
theorem taskAt_update (h : s.Addressed) (hall : s'.all = s.all)
    (hrel : s'.released = s.released) {a : Addr} {r : Coroutine Fn Arg}
    (hmem : s'.mem = Function.update s.mem a r) (ha : s.live a = true) (hr : r.id = s.idOf a) :
    s'.taskAt = Function.update s.taskAt (s.idOf a) (some (r.task s.idOf false)) := by
  funext k
  rw [taskAt_of_idOf (idOf_update hmem hr) hall hrel]
  by_cases e : k = s.idOf a
  · subst e
    rw [h.released_none ha, h.registered a ha, Function.update_self]
    simp [hmem]
  · rw [Function.update_of_ne e, taskAt]
    cases hrk : s.released k with
    | some r' => rfl
    | none =>
        cases hk : s.addrOf k with
        | none => rfl
        | some b =>
            -- `b` is the address of `k`, which is not the coroutine that changes
            have hb : b ≠ a := fun eb =>
              e ((h.unreleased k b hk).mp hrk |>.2 ▸ congrArg s.idOf eb)
            simp [hmem, hb]

end Addressed

end State

end CCoroutine
