import CCoroutine.Completion.Progress
import CCoroutine.Support.RoundRobin
import CCoroutine.Temporal.Fifo
import Mathlib.Order.Lattice.Nat

/-!
# Completion — RoundRobin

Coroutines that only yield take turns.  When main creates `n` coroutines and calls `co_run` on an
otherwise empty run-queue, and the `i`-th of them yields `k i` times, the run-queue is a round-robin
queue (`Lined.serve`), so that round `r` resumes those with `r ≤ k i`, in the order of their
creation (`PState.roundRobin`).
-/

namespace CCoroutine
open CCoroutine.Ideal (Sys Ev)
open Support (Steps Reachable Serve)

/-! ### Steps that nobody waits for -/

namespace Ideal

variable {Fn Arg : Type} {A B : Sys Fn Arg} {e : Ev Fn Arg} {k : ℕ}

/-- Nobody waits on `k`. -/
def Sys.Alone (A : Sys Fn Arg) (k : ℕ) : Prop := ∀ w, ¬ A.WaitsOn w k

theorem Step.alone (h : Inv A) (hs : Step A e B) (ha : A.Alone k) (he : ∀ w, e ≠ .blocked w k) :
    B.Alone k := fun w hw =>
  (hs.waitsOn_of h hw).elim (ha w) (he w)

/-- What does not exist is waited for by nobody. -/
theorem Inv.alone_of_none (h : Inv A) (hk : A.task k = none) : A.Alone k := by
  rintro w ⟨t, ht, -, ha⟩
  obtain ⟨u, hu, -⟩ := h.target w t k ht ha
  rw [hk] at hu
  cases hu

theorem Step.finished_alone {ws : List ℕ} (hs : Step A (.finished k ws) B) (ha : A.Alone k) :
    ws = [] := by
  cases hs with
  | finish hc ht hf hn hw =>
      exact List.eq_nil_iff_forall_not_mem.mpr fun w hm => ha w ((hw w).mp hm)

end Ideal

/-- `k` calls of `co_yield`, and the return. -/
def Code.yields {L : Type} : ℕ → Code L
  | 0 => .ret
  | k + 1 => .yield (yields k)

namespace PState

variable {L : Type} {p : PState L} {q : List (ℕ × ℕ)} {x k : ℕ}

/-- The run-queue holds the ids in `q`, each with the number of times it will yield. -/
structure Lined (p : PState L) (q : List (ℕ × ℕ)) : Prop where
  inv : p.s.InvM
  queue : p.s.abs.queue = q.map Prod.fst
  code : ∀ y ∈ q, p.code y.1 = some (.yields y.2)
  alone : ∀ y ∈ q, p.s.abs.Alone y.1

/-- What is done in `p` is done in `p'`, and main has called `co_run` in both or in neither. -/
structure Keeps (p p' : PState L) : Prop where
  called : p'.called = p.called
  done : ∀ i, p.s.abs.InState i .done → p'.s.abs.InState i .done

namespace Lined

/-- Its first member is resumed. -/
theorem turn (h : p.Lined ((x, k) :: q)) (hloop : p.s.ctl = .loop none) :
    ∃ s', StepM p.s .sched s' ∧ (p.s.event .sched).resumedIds = [x] ∧
      s'.abs.ctl = .user (some x) ∧ s'.abs.Alone x ∧ Lined { p with s := s' } q := by
  obtain ⟨co, rest, hq, rfl, hrest⟩ := List.map_eq_cons_iff.mp h.queue
  obtain ⟨s', hs⟩ := h.inv.exists_step (a := .sched) ⟨none, hloop⟩ trivial
    (by simp [State.TableFull])
  obtain ⟨hstep, hinv⟩ := h.inv.refines hs
  have hfifo := hstep.fifo
  have halone : ∀ j, p.s.abs.Alone j → s'.abs.Alone j := fun j hj =>
    hstep.alone h.inv.ideal hj (by simp [State.event, hq])
  simp only [State.event, hq] at hstep hfifo ⊢
  refine ⟨s', hs, rfl, hstep.resumed_ctl, halone _ (h.alone _ List.mem_cons_self), hinv, ?_,
    fun y hy => h.code y (List.mem_cons_of_mem _ hy),
    fun y hy => halone _ (h.alone y (List.mem_cons_of_mem _ hy))⟩
  rw [h.queue] at hfifo
  simpa [Ev.resumedIds, Ev.pushedIds] using hfifo

/-- A call pushes `l`. -/
theorem call (h : p.Lined q) (p' : PState L) {a : Act (Routine L) Unit} (hs : StepM p.s a p'.s)
    {l : List (ℕ × ℕ)} (hres : (p.s.event a).resumedIds = [])
    (hpush : (p.s.event a).pushedIds = l.map Prod.fst)
    (hblock : ∀ w j, p.s.event a ≠ .blocked w j)
    (hcode : ∀ y ∈ q ++ l, p'.code y.1 = some (.yields y.2))
    (hnew : ∀ y ∈ l, p.s.abs.Alone y.1) : p'.Lined (q ++ l) := by
  obtain ⟨hstep, hinv⟩ := h.inv.refines hs
  refine ⟨hinv, ?_, hcode, fun y hy => ?_⟩
  · have hfifo := hstep.fifo
    rwa [hres, hpush, h.queue, List.nil_append, ← List.map_append] at hfifo
  · have hold : p.s.abs.Alone y.1 := (List.mem_append.mp hy).elim (h.alone y) (hnew y)
    exact hstep.alone h.inv.ideal hold fun w => hblock w y.1

theorem le_of_mem (h : p.Lined q) {y : ℕ × ℕ} (hy : y ∈ q) : y.1 ≤ p.s.all.length := by
  have hm : y.1 ∈ p.s.abs.queue := h.queue ▸ List.mem_map_of_mem hy
  obtain ⟨t, ht, -⟩ := (h.inv.ideal.ready y.1).mp hm
  exact ((h.inv.ideal.range y.1).mp (by simp [ht])).2

theorem keeps (h : p.Lined q) {p' : PState L} {a : Act (Routine L) Unit} (hs : StepM p.s a p'.s)
    (hc : p'.called = p.called) : p.Keeps p' :=
  ⟨hc, fun _ hd => (h.inv.refines hs).1.done h.inv.ideal hd⟩

/-- Its code, past the first command. -/
theorem code_pop (h : p.Lined q) {c : Addr} (hc : p.s.ctl = .user (some c)) {cd : Code L}
    (hcode : p.code (p.s.idOf c) = some cd) :
    p.pop = { p with code := Function.update p.code (p.s.idOf c) cd.tail } ∧
      ∀ y ∈ q, p.pop.code y.1 = some (.yields y.2) := by
  have hpop : p.pop = { p with code := Function.update p.code (p.s.idOf c) cd.tail } := by
    simp [pop, hc, hcode]
  refine ⟨hpop, fun y hy => ?_⟩
  have hne : y.1 ≠ p.s.idOf c := by
    -- what is in the queue is ready, and the body that executes is running
    intro e
    have hready := (h.inv.ideal.ready y.1).mp (h.queue ▸ List.mem_map_of_mem hy)
    have hrun := h.inv.ideal.running_of_ctl (State.abs_ctl_user hc)
    cases (e ▸ hready).unique hrun
  rw [hpop]
  exact (Function.update_of_ne hne _ _).trans (h.code y hy)

/-- Back in main's loop. -/
theorem loop_main {s' : State (Routine L) Unit} (hi : s'.InvM) {o : Option ℕ}
    (h : s'.abs.ctl = .loop o) : s'.ctl = .loop none := by
  cases hc : s'.ctl with
  | user who => cases (State.abs_ctl_user hc).symm.trans h
  | loop who => rw [hi.loop_main hc]

end Lined

/-! ### Runs -/

variable [DecidableEq L] {p₀ : PState L} {alloc : ℕ → Addr × Addr} {n : ℕ} {xs : List ℕ}

/-- After `n` steps from `p₀` the program is `p`, and `xs` have been resumed. -/
structure After (p₀ : PState L) (alloc : ℕ → Addr × Addr) (n : ℕ) (p : PState L) (xs : List ℕ) :
    Prop where
  run : p₀.run alloc n = .ok p
  resumed : (p₀.trace alloc n).flatMap Ev.resumedIds = xs

theorem After.next (h : After p₀ alloc n p xs) {c : Cmd L} (hcmd : p.cmd = some c)
    {s' : State (Routine L) Unit} (hs : StepM p.s (p.act (alloc n) c) s') :
    After p₀ alloc (n + 1) { p.pop.bindNew (alloc n) c with s := s' }
      (xs ++ (p.s.event (p.act (alloc n) c)).resumedIds) := by
  constructor
  · rw [run_succ h.run, exec, hcmd]
    simp only [hs.1.2]
    rfl
  · rw [trace_succ h.run, List.flatMap_append, h.resumed, event, hcmd]
    simp

/-- A step that resumes nothing. -/
theorem After.call (h : After p₀ alloc n p xs) {c : Cmd L} (hcmd : p.cmd = some c)
    {s' : State (Routine L) Unit} (hs : StepM p.s (p.act (alloc n) c) s')
    (hres : (p.s.event (p.act (alloc n) c)).resumedIds = []) :
    After p₀ alloc (n + 1) { p.pop.bindNew (alloc n) c with s := s' } xs := by
  have hnext := h.next hcmd hs
  rwa [hres, List.append_nil] at hnext

namespace Lined

/-- The loop resumes the first of the queue. -/
theorem resume (h : p.Lined ((x, k) :: q)) (hloop : p.s.ctl = .loop none)
    (hafter : After p₀ alloc n p xs) :
    ∃ p' c, After p₀ alloc (n + 1) p' (xs ++ [x]) ∧ p'.Lined q ∧ p.Keeps p' ∧
      p'.s.ctl = .user (some c) ∧ p'.s.idOf c = x ∧ p'.code x = some (.yields k) ∧
      p'.s.abs.Alone x := by
  obtain ⟨s', hs, hres, hctl, halone, hlined⟩ := h.turn hloop
  obtain ⟨c, hc, hid⟩ := State.executes_iff.mpr hctl
  have hcmd : p.cmd = some .turn := by simp [cmd, hloop]
  have hpop : p.pop = p := by simp [pop, hloop]
  have hnext := hafter.next hcmd hs
  rw [hpop] at hnext
  exact ⟨{ p with s := s' }, c, hres ▸ hnext, hlined, h.keeps hs rfl, hc, hid,
    h.code _ List.mem_cons_self, halone⟩

variable {c : Addr}

/-- The body that executes yields, and is the last of the queue. -/
theorem yield (h : p.Lined q) (hc : p.s.ctl = .user (some c))
    (hcode : p.code (p.s.idOf c) = some (.yields (k + 1)))
    (ha : p.s.abs.Alone (p.s.idOf c)) (hafter : After p₀ alloc n p xs) :
    ∃ p', After p₀ alloc (n + 1) p' xs ∧ p'.Lined (q ++ [(p.s.idOf c, k)]) ∧ p.Keeps p' ∧
      p'.s.ctl = .loop none := by
  obtain ⟨s', hs⟩ := h.inv.exists_step (a := .yield) ⟨c, hc⟩ trivial (by simp [State.TableFull])
  obtain ⟨hstep, hinv⟩ := h.inv.refines hs
  have hcmd : p.cmd = some .yield := by simp [cmd, hc, hcode, Code.yields, Code.head]
  obtain ⟨hpop, hold⟩ := h.code_pop hc hcode
  have hpush : (p.s.event .yield).pushedIds = [p.s.idOf c] := by
    simp [State.event, State.self_eq hc, Ev.pushedIds]
  refine ⟨_, hafter.call hcmd hs rfl, h.call _ hs rfl hpush (by simp [State.event])
    (fun y hy => ?_) (by simpa using ha), h.keeps hs (by rw [hpop]; rfl), ?_⟩
  · rcases List.mem_append.mp hy with hy | hy
    · exact hold y hy
    · obtain rfl : y = (p.s.idOf c, k) := by simpa using hy
      simp [bindNew, hpop, Code.yields, Code.tail]
  · obtain ⟨o, ho⟩ := hstep.yielded_ctl
    exact loop_main hinv ho

/-- The body that executes returns. -/
theorem ret (h : p.Lined q) (hc : p.s.ctl = .user (some c))
    (hcode : p.code (p.s.idOf c) = some (.yields 0))
    (ha : p.s.abs.Alone (p.s.idOf c)) (hafter : After p₀ alloc n p xs) :
    ∃ p', After p₀ alloc (n + 1) p' xs ∧ p'.Lined q ∧ p.Keeps p' ∧
      p'.s.ctl = .loop none ∧ p'.s.abs.InState (p.s.idOf c) .done := by
  obtain ⟨s', hs⟩ := h.inv.exists_step (a := .ret) ⟨c, hc⟩ trivial (by simp [State.TableFull])
  obtain ⟨hstep, hinv⟩ := h.inv.refines hs
  have hcmd : p.cmd = some .ret := by simp [cmd, hc, hcode, Code.yields, Code.head]
  obtain ⟨hpop, hold⟩ := h.code_pop hc hcode
  obtain ⟨ws, hev⟩ : ∃ ws, p.s.event .ret = .finished (p.s.idOf c) ws :=
    ⟨_, by rw [State.event, State.self_eq hc]⟩
  rw [hev] at hstep
  obtain rfl := hstep.finished_alone ha
  obtain ⟨-, hdone, o, ho⟩ := hstep.finished_inv
  have hlined := h.call { p.pop with s := s' } hs (l := []) (by rw [hev]; rfl) (by rw [hev]; rfl)
    (by simp [hev]) (by simpa using hold) (by simp)
  rw [List.append_nil] at hlined
  exact ⟨_, hafter.call hcmd hs rfl, hlined, h.keeps hs (by rw [hpop]; rfl), loop_main hinv ho,
    hdone⟩

end Lined

/-- The tasks that are done, or still in the queue. -/
def Served (p : PState L) (q : List (ℕ × ℕ)) (i : ℕ) : Prop :=
  p.s.abs.InState i .done ∨ i ∈ q.map Prod.fst

/-- **A turn of the scheduler loop is a turn of the round-robin queue**: the first of the run-queue
is resumed, and it yields or returns. -/
theorem Lined.serve (h : p.Lined q) (hloop : p.s.ctl = .loop none) {q' : List (ℕ × ℕ)}
    (hs : Serve q x q') (hafter : After p₀ alloc n p xs) :
    ∃ p', After p₀ alloc (n + 2) p' (xs ++ [x]) ∧ p'.Lined q' ∧ p'.s.ctl = .loop none ∧
      p'.called = p.called ∧ ∀ i, p.Served q i → p'.Served q' i := by
  cases hs with
  | last x q =>
      obtain ⟨p₁, c, hafter₁, h₁, hkeep₁, hc, rfl, hcode, halone⟩ := h.resume hloop hafter
      obtain ⟨p₂, hafter₂, h₂, hkeep₂, hloop₂, hdone⟩ := h₁.ret hc hcode halone hafter₁
      refine ⟨p₂, hafter₂, h₂, hloop₂, hkeep₂.called.trans hkeep₁.called, fun i hi => ?_⟩
      rcases hi with hi | hi
      · exact .inl (hkeep₂.done i (hkeep₁.done i hi))
      · rcases List.mem_cons.mp hi with rfl | hi
        · exact .inl hdone
        · exact .inr hi
  | again x k q =>
      obtain ⟨p₁, c, hafter₁, h₁, hkeep₁, hc, rfl, hcode, halone⟩ := h.resume hloop hafter
      obtain ⟨p₂, hafter₂, h₂, hkeep₂, hloop₂⟩ := h₁.yield hc hcode halone hafter₁
      refine ⟨p₂, hafter₂, h₂, hloop₂, hkeep₂.called.trans hkeep₁.called, fun i hi => ?_⟩
      rcases hi with hi | hi
      · exact .inl (hkeep₂.done i (hkeep₁.done i hi))
      · refine .inr ?_
        rw [List.map_append]
        rcases List.mem_cons.mp hi with rfl | hi
        · exact List.mem_append_right _ List.mem_cons_self
        · exact List.mem_append_left _ hi

/-- The turns of the queue, one after another. -/
theorem Lined.serveAll {q' : List (ℕ × ℕ)} {ys : List ℕ} (hs : Steps Serve q ys q') :
    ∀ {p n xs}, p.Lined q → p.s.ctl = .loop none → After p₀ alloc n p xs →
      ∃ n' p', After p₀ alloc n' p' (xs ++ ys) ∧ p'.Lined q' ∧ p'.s.ctl = .loop none ∧
        p'.called = p.called ∧ ∀ i, p.Served q i → p'.Served q' i := by
  induction hs with
  | refl q =>
      intro p n xs h hloop hafter
      exact ⟨n, p, by simpa using hafter, h, hloop, rfl, fun i hi => hi⟩
  | more hserve _ ih =>
      intro p n xs h hloop hafter
      obtain ⟨p₁, hafter₁, h₁, hloop₁, hcalled₁, hserved₁⟩ := h.serve hloop hserve hafter
      obtain ⟨n', p', hafter', h', hloop', hcalled', hserved'⟩ := ih h₁ hloop₁ hafter₁
      refine ⟨n', p', ?_, h', hloop', hcalled'.trans hcalled₁, fun i hi =>
        hserved' i (hserved₁ i hi)⟩
      simpa using hafter'

/-- Main creates a coroutine, the last of the queue. -/
theorem Lined.create (h : p.Lined q) (hctl : p.s.ctl = .user none) {f : Routine L}
    {rest : Program L} (hmain : p.main = f :: rest) (hf : f.body = .yields k)
    (hcount : p.s.all.length < maxCoroutines) (hfree : p.s.live (alloc n).1 = false)
    (hafter : After p₀ alloc n p xs) :
    ∃ p', After p₀ alloc (n + 1) p' xs ∧ p'.Lined (q ++ [(p.s.all.length + 1, k)]) ∧
      p'.s.ctl = .user none ∧ p'.main = rest ∧ p'.called = p.called ∧
      p'.s.all.length = p.s.all.length + 1 := by
  obtain ⟨s', hs⟩ := h.inv.exists_step (a := .create (some f) none 0 (.ok (alloc n).1 (alloc n).2))
    ⟨⟨none, hctl⟩, Option.some_ne_none f, hfree⟩ trivial (fun hfull => hcount.ne hfull.2)
  have hstep := (h.inv.refines hs).1
  have hcmd : p.cmd = some (.create f) := by simp [cmd, hctl, hmain]
  have hpop : p.pop = { p with main := rest } := by simp [pop, hctl, hmain]
  have hnone := (hstep.created_inv h.inv.ideal).1
  refine ⟨_, hafter.call hcmd hs rfl, h.call _ hs rfl rfl (by simp [State.event])
    (fun y hy => ?_) (fun y hy => ?_), ?_, ?_, ?_, ?_⟩
  · rcases List.mem_append.mp hy with hy | hy
    · have hne : y.1 ≠ p.s.all.length + 1 := by
        have := h.le_of_mem hy
        omega
      simpa [bindNew, hpop, hne] using h.code y hy
    · obtain rfl : y = (p.s.all.length + 1, k) := by simpa using hy
      simp [bindNew, hpop, hf]
  · obtain rfl : y = (p.s.all.length + 1, k) := by simpa using hy
    exact h.inv.ideal.alone_of_none hnone
  · exact State.abs_ctl_main_iff.mp (hstep.created_ctl.trans (State.abs_ctl_user hctl))
  · simp [bindNew, hpop]
  · simp [bindNew, hpop]
  · simp [State.step_all hs.1.2, Act.newAddr]

/-- Main creates the coroutines it has still to create. -/
theorem Lined.creates {b m j : ℕ} {k : ℕ → ℕ}
    (hfree : ∀ n p f, p₀.run alloc n = .ok p → p.cmd = some (.create f) →
      p.s.live (alloc n).1 = false) :
    ∀ {p n q}, p.Lined q → p.s.ctl = .user none → p.called = false →
      p.main.map Routine.body = (List.range' j m).map (fun i => .yields (k i)) →
      p.s.all.length + 1 = b + j → b + j + m ≤ maxCoroutines + 1 → After p₀ alloc n p xs →
      ∃ n' p', After p₀ alloc n' p' xs ∧
        p'.Lined (q ++ (List.range' j m).map fun i => (b + i, k i)) ∧ p'.s.ctl = .user none ∧
        p'.main = [] ∧ p'.called = false := by
  induction m generalizing j with
  | zero =>
      intro p n q h hctl hcalled hmain _ _ hafter
      exact ⟨n, p, hafter, by simpa using h, hctl, by simpa using hmain, hcalled⟩
  | succ m ih =>
      intro p n q h hctl hcalled hmain hlen hcount hafter
      obtain ⟨f, rest, hp, hf, hrest⟩ := List.map_eq_cons_iff.mp hmain
      have hcmd : p.cmd = some (.create f) := by simp [cmd, hctl, hp]
      obtain ⟨p₁, hafter₁, h₁, hctl₁, hmain₁, hcalled₁, hlen₁⟩ :=
        h.create hctl hp hf (by omega) (hfree n p f hafter.run hcmd) hafter
      obtain ⟨n', p', hafter', h', hctl', hmain', hcalled'⟩ :=
        ih (j := j + 1) h₁ hctl₁ (hcalled₁.trans hcalled) (hmain₁ ▸ hrest) (by omega) (by omega)
          hafter₁
      refine ⟨n', p', hafter', ?_, hctl', hmain', hcalled'⟩
      simpa [List.range'_succ, hlen] using h'

/-- Main calls `co_run`. -/
theorem Lined.run (h : p.Lined q) (hctl : p.s.ctl = .user none) (hmain : p.main = [])
    (hcalled : p.called = false) (hafter : After p₀ alloc n p xs) :
    ∃ p', After p₀ alloc (n + 1) p' xs ∧ p'.Lined q ∧ p'.s.ctl = .loop none ∧ p'.called = true := by
  obtain ⟨s', hs⟩ := h.inv.exists_step (a := .run) ⟨none, hctl⟩ hctl (by simp [State.TableFull])
  obtain ⟨hstep, hinv⟩ := h.inv.refines hs
  have hcmd : p.cmd = some .run := by simp [cmd, hctl, hmain, hcalled]
  have hpop : p.pop = { p with called := true } := by simp [pop, hctl, hmain]
  have hnext := hafter.call hcmd hs rfl
  rw [hpop] at hnext
  have hlined := h.call { p with called := true, s := s' } hs (l := []) rfl rfl
    (by simp [State.event]) (by simpa using h.code) (by simp)
  rw [List.append_nil] at hlined
  exact ⟨_, hnext, hlined, loop_main hinv hstep.runCalled_ctl, rfl⟩

/-- The loop finds the run-queue empty, and `co_run` returns. -/
theorem Lined.runReturn (h : p.Lined []) (hloop : p.s.ctl = .loop none)
    (hafter : After p₀ alloc n p xs) :
    ∃ p', After p₀ alloc (n + 1) p' xs ∧ p.Keeps p' ∧ p'.s.ctl = .user none ∧
      p'.s.runQueue = [] := by
  obtain ⟨s', hs⟩ := h.inv.exists_step (a := .sched) ⟨none, hloop⟩ trivial
    (by simp [State.TableFull])
  obtain ⟨hstep, hinv⟩ := h.inv.refines hs
  have hempty : p.s.runQueue = [] := List.map_eq_nil_iff.mp h.queue
  have hcmd : p.cmd = some .turn := by simp [cmd, hloop]
  have hpop : p.pop = p := by simp [pop, hloop]
  have hev : p.s.event .sched = .runReturned none := by simp [State.event, hempty, hloop]
  have hnext := hafter.call hcmd hs (congrArg Ev.resumedIds hev)
  rw [hpop] at hnext
  rw [hev] at hstep
  have hfifo := hstep.fifo
  refine ⟨_, hnext, h.keeps hs rfl, ?_, ?_⟩
  · exact State.abs_ctl_main_iff.mp hstep.runReturned_ctl
  · rw [h.queue] at hfifo
    exact List.map_eq_nil_iff.mp hfifo

/-- **Round-robin in closed form.**  The run-queue is empty, wherever the ring stands; main creates
`n` coroutines, of which the `i`-th yields `k i` times and returns, and calls `co_run`.  Then round
`r` resumes those with `r ≤ k i`, in the order of their creation, and `co_run` returns with all of
them done and the run-queue empty. -/
theorem roundRobin (p : PState L) (alloc : ℕ → Addr × Addr) (n : ℕ) (k : ℕ → ℕ)
    (hreach : Reachable Step State.init p.s) (hctl : p.s.ctl = .user none)
    (hempty : p.s.runQueue = []) (hcalled : p.called = false)
    (hmain : p.main.map Routine.body = (List.range n).map fun i => .yields (k i))
    (hcount : p.s.all.length + n ≤ maxCoroutines)
    (hfree : ∀ N q f, p.run alloc N = .ok q → q.cmd = some (.create f) →
      q.s.live (alloc N).1 = false) :
    ∃ N q, p.run alloc N = .ok q ∧ q.called = true ∧ q.s.ctl = .user none ∧ q.s.runQueue = [] ∧
      (p.trace alloc N).flatMap Ev.resumedIds =
        (List.range ((Finset.range n).sup k + 1)).flatMap (fun r =>
          ((List.range n).filter fun i => r ≤ k i).map fun i => p.s.all.length + 1 + i) ∧
      ∀ i < n, ∃ t, q.s.taskAt (p.s.all.length + 1 + i) = some t ∧ t.state = .done := by
  have h₀ : p.Lined [] :=
    { inv := (State.inv_of_reachable hreach).invM_of_main hctl
      queue := by simp [State.abs, hempty]
      code := by simp
      alone := by simp }
  obtain ⟨n₁, p₁, hafter₁, h₁, hctl₁, hmain₁, hcalled₁⟩ :=
    Lined.creates (b := p.s.all.length + 1) (j := 0) (m := n) (k := k) hfree h₀ hctl hcalled
      (by rwa [← List.range_eq_range']) rfl (by omega) (⟨rfl, rfl⟩ : After p alloc 0 p [])
  obtain ⟨p₂, hafter₂, h₂, hloop₂, hcalled₂⟩ := h₁.run hctl₁ hmain₁ hcalled₁ hafter₁
  rw [List.nil_append, ← List.range_eq_range'] at h₂
  generalize hq : ((List.range n).map fun i => (p.s.all.length + 1 + i, k i)) = q at h₂
  -- nobody yields more often than the largest `k i`
  have hlt : ∀ y ∈ q, y.2 < (Finset.range n).sup k + 1 := by
    intro y hy
    rw [← hq] at hy
    obtain ⟨i, hi, rfl⟩ := List.mem_map.mp hy
    exact Nat.lt_succ_of_le (Finset.le_sup (f := k) (by simpa using hi))
  obtain ⟨n₃, p₃, hafter₃, h₃, hloop₃, hcalled₃, hserved⟩ :=
    Lined.serveAll (Support.serve_all hlt) h₂ hloop₂ hafter₂
  obtain ⟨p₄, hafter₄, hkeep, hctl₄, hempty₄⟩ := h₃.runReturn hloop₃ hafter₃
  refine ⟨_, p₄, hafter₄.run, hkeep.called.trans (hcalled₃.trans hcalled₂), hctl₄, hempty₄, ?_,
    fun i hi => ?_⟩
  · rw [hafter₄.resumed, ← hq]
    simp [Support.rounds, List.filter_map, Function.comp_def]
  · have hi : p₂.Served q (p.s.all.length + 1 + i) := .inr (by simp [← hq]; omega)
    exact hkeep.done _ ((hserved _ hi).resolve_right (by simp))

/-- A coroutine is created and runs. -/
def oneDone : List (Act (Routine Unit) Unit) :=
  [.create (some ⟨(), .ret⟩) none 0 (.ok 101 103), .run, .sched, .ret, .sched]

/-- The ring stands at its second slot.  Main is about to create three coroutines, which yield
twice, not at all, and once. -/
def threeTasks : PState Unit where
  s := (Support.exec State.next State.init oneDone).getD State.init
  code := fun _ => none
  main := [⟨(), .yields 2⟩, ⟨(), .yields 0⟩, ⟨(), .yields 1⟩]
  called := false
  env := fun _ => none

theorem roundRobin_threeTasks : ∃ N q, threeTasks.run (fun i => (2 * i, 2 * i + 1)) N = .ok q ∧
    q.called = true ∧ q.s.ctl = .user none ∧ q.s.runQueue = [] ∧
    (threeTasks.trace (fun i => (2 * i, 2 * i + 1)) N).flatMap Ev.resumedIds = [2, 3, 4, 2, 4, 2] ∧
    ∀ i < 3, ∃ t, q.s.taskAt (2 + i) = some t ∧ t.state = .done := by
  have hlive : threeTasks.s.live = Function.update (fun _ => false) 101 true := rfl
  have hreach : Reachable Step State.init
      ((Support.exec State.next State.init oneDone).getD State.init) :=
    Support.reachable_of_exec (fun _ _ _ => State.step_of_next) (by decide)
  refine roundRobin threeTasks (fun i => (2 * i, 2 * i + 1)) 3 (fun i => [2, 0, 1].getD i 0)
    hreach rfl (by decide) rfl rfl (by decide) fun N q f hq _ => ?_
  refine live_eq_false (fun i j h => ?_) (fun i => ?_) hq N le_rfl
  · have : 2 * i = 2 * j := h
    omega
  · have hne : 2 * i ≠ 101 := by omega
    rw [hlive]
    exact Function.update_of_ne hne _ _

end PState

end CCoroutine
