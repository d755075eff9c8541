import CCoroutine.Clients.Programs
import CCoroutine.Temporal.Allocator
import CCoroutine.Completion.Handles

/-!
# Clients — Lockstep

A program on `src/coroutine.c` beside the tasks of `Support.Turns`.  The line of the tasks is the
coroutine that executes followed by the run-queue, and the blocked tasks are the coroutines that
wait (`Process.Shows`).  A turn of the loop of `co_run` changes nothing of it, a call of a body is
one step of the tasks, and `co_create` adds a task at the end of the line.
-/

namespace CCoroutine
open CCoroutine.Ideal (Task Sys Ev)
open Support (Call Script Turns Reachable)

namespace Ideal

variable {Fn Arg : Type} {A B : Sys Fn Arg} {e : Ev Fn Arg}

/-- The task whose body is being executed. -/
def Sys.current (A : Sys Fn Arg) : Option ℕ :=
  match A.ctl with
  | .user who => who
  | .loop _ => none

theorem Sys.current_of_loop {o : Option ℕ} (h : A.ctl = .loop o) : A.current = none := by
  simp [current, h]

theorem Sys.current_of_user {o : Option ℕ} (h : A.ctl = .user o) : A.current = o := by
  simp [current, h]

/-- **Who waits after a step.** -/
theorem Step.waitsOn_iff (h : Inv A) (hs : Step A e B) {i j : ℕ} :
    B.WaitsOn i j ↔ (A.WaitsOn i j ∧ ∀ ws, e ≠ .finished j ws) ∨ e = .blocked i j := by
  constructor
  · intro hw
    rcases hs.waitsOn_of h hw with ha | he
    · refine .inl ⟨ha, ?_⟩
      rintro ws rfl
      -- the target of a wait has not finished
      obtain ⟨t, ht, -, hj⟩ := hw
      obtain ⟨u, hu, hn⟩ := (h.step hs).target i t j ht hj
      exact hn (hs.finished_inv.2.1.eq hu)
    · exact .inr he
  · rintro (⟨ha, hn⟩ | rfl)
    · exact (hs.waitsOn h ha).resolve_right fun ⟨_, ws, he⟩ => hn ws he
    · exact hs.blocked_inv.2.1

/-- The line: the task that executes, and those that are ready. -/
theorem Inv.mem_line_iff (h : Inv A) (hf : A.Flat) {j : ℕ} :
    j ∈ A.current.toList ++ A.queue ↔ A.InState j .running ∨ A.InState j .ready := by
  have hexec : j ∈ A.current.toList ↔ A.InState j .running := by
    rw [h.inState_running_iff hf, Sys.current]
    cases A.ctl with
    | user who => simp
    | loop who => simp
  rw [List.mem_append, hexec, h.ready]

theorem Inv.nodup_line (h : Inv A) : (A.current.toList ++ A.queue).Nodup := by
  cases hc : A.ctl with
  | loop who =>
      rw [Sys.current_of_loop hc]
      exact h.nodup
  | user who =>
      rw [Sys.current_of_user hc]
      cases who with
      | none => exact h.nodup
      | some k =>
          refine List.nodup_cons.mpr ⟨?_, h.nodup⟩
          intro hk
          cases ((h.ready k).mp hk).unique (h.running_of_ctl hc)

/-- A task that is not done is in the line, or waits. -/
theorem Inv.done_iff (h : Inv A) (hf : A.Flat) {j : ℕ} {t : Task Fn Arg} (ht : A.task j = some t) :
    A.InState j .done ↔ j ∉ A.current.toList ++ A.queue ∧ ∀ i, ¬ A.WaitsOn j i := by
  rw [h.mem_line_iff hf]
  constructor
  · intro hd
    refine ⟨?_, ?_⟩
    · rintro (hr | hr) <;> cases hd.unique hr
    · rintro i ⟨u, hu, hw, -⟩
      cases hd.unique ⟨u, hu, hw⟩
  · rintro ⟨hn, hw⟩
    refine ⟨t, ht, ?_⟩
    cases hs : t.state with
    | ready => exact absurd (.inr ⟨t, ht, hs⟩) hn
    | running => exact absurd (.inl ⟨t, ht, hs⟩) hn
    | waiting =>
        obtain ⟨i, hi⟩ := Option.ne_none_iff_exists'.mp ((h.waiting j t ht).mp hs)
        exact absurd ⟨t, ht, hs, hi⟩ (hw i)
    | done => rfl

theorem Inv.unfinished_iff (h : Inv A) (hf : A.Flat) (hw : ∀ i j, ¬ A.WaitsOn i j) {j : ℕ} :
    A.Unfinished j ↔ j ∈ A.current.toList ++ A.queue := by
  constructor
  · rintro ⟨t, ht, hn⟩
    by_contra hj
    exact hn (((h.done_iff hf ht).mpr ⟨hj, hw j⟩).eq ht)
  · intro hj
    obtain ⟨t, ht⟩ : ∃ t, A.task j = some t := by
      rcases (h.mem_line_iff hf).mp hj with ⟨t, ht, -⟩ | ⟨t, ht, -⟩
      · exact ⟨t, ht⟩
      · exact ⟨t, ht⟩
    exact ⟨t, ht, fun hd => ((h.done_iff hf ht).mp ⟨t, ht, hd⟩).1 hj⟩

end Ideal

namespace Process

variable {σ κ : Type} {f : Script σ κ} {p : Process σ κ} {c : Turns σ κ}

/-- The program is at the step `c` of the tasks. -/
structure Shows (p : Process σ κ) (c : Turns σ κ) : Prop where
  inv : p.s.InvM
  mem : p.mem = c.mem
  line : p.s.abs.current.toList ++ p.s.abs.queue = c.line.map Prod.fst
  loc : ∀ x ∈ c.line, p.loc x.1 = some x.2
  blocked : ∀ i j, p.s.abs.WaitsOn i j ↔ ∃ k, (i, j, k) ∈ c.blocked
  blockedLoc : ∀ x ∈ c.blocked, p.loc x.1 = some x.2.2
  sorted : (c.blocked.map Prod.fst).SortedLT

namespace Shows

theorem mem_blocked (h : p.Shows c) {i : ℕ} :
    i ∈ c.blocked.map Prod.fst ↔ ∃ j, p.s.abs.WaitsOn i j := by
  simp only [h.blocked, List.mem_map, Prod.exists, exists_and_right, exists_eq_right]

/-- The tasks that have finished are the coroutines that are done. -/
theorem finished_iff (h : p.Shows c) {j : ℕ} {t : Task κ Unit} (ht : p.s.abs.task j = some t) :
    c.finished j = true ↔ p.s.abs.InState j .done := by
  rw [h.inv.ideal.done_iff h.inv.flat ht, h.line, Turns.finished, decide_eq_true_eq, h.mem_blocked,
    not_exists]

/-- With the line empty and nobody waiting, every coroutine is done. -/
theorem done (h : p.Shows c) (hl : c.line = []) (hb : c.blocked = []) (k : ℕ) (t : Task κ Unit)
    (ht : p.s.taskAt k = some t) : t.state = .done := by
  have hfin : c.finished k = true := by simp [Turns.finished, hl, hb]
  exact ((h.finished_iff ht).mp hfin).eq ht

/-- With nobody waiting, the line is the coroutines that have not finished, each where its body goes
on. -/
theorem mem_line_iff (h : p.Shows c) (hb : c.blocked = []) {j : ℕ} {k : κ} :
    (j, k) ∈ c.line ↔ p.s.abs.Unfinished j ∧ p.loc j = some k := by
  have hw : ∀ i j, ¬ p.s.abs.WaitsOn i j := by
    intro i j hij
    obtain ⟨k, hk⟩ := (h.blocked i j).mp hij
    rw [hb] at hk
    cases hk
  rw [h.inv.ideal.unfinished_iff h.inv.flat hw, h.line]
  constructor
  · intro hx
    exact ⟨List.mem_map_of_mem hx, h.loc _ hx⟩
  · rintro ⟨hj, hk⟩
    obtain ⟨⟨i, k'⟩, hx, rfl⟩ := List.mem_map.mp hj
    obtain rfl : k' = k := Option.some.inj ((h.loc _ hx).symm.trans hk)
    exact hx

/-- `co_state` tells which they are. -/
theorem finished_eq (h : p.Shows c) {j : ℕ} {t : Task κ Unit} (ht : p.s.abs.task j = some t)
    (hfree : t.freed = false) : p.finished j = c.finished j := by
  rcases h.inv.addr.taskAt_cases ht with ⟨r, -, rfl⟩ | ⟨a, ha, hid, -⟩
  · cases hfree
  · have haddr : p.s.addrOf j = some a := hid ▸ h.inv.addr.registered a ha
    rw [Bool.eq_iff_iff, h.finished_iff ht, ← hid, h.inv.inState_iff ha, hid, finished, haddr,
      decide_eq_true_eq]
    simp [State.coState, Except.toOption]

/-- The head of the line is the coroutine that executes. -/
theorem line_cons (h : p.Shows c) {a : Addr} (hc : p.s.ctl = .user (some a)) :
    ∃ k rest, c.line = (p.s.idOf a, k) :: rest ∧ p.loc (p.s.idOf a) = some k ∧
      rest.map Prod.fst = p.s.abs.queue := by
  have hline := h.line
  rw [Sys.current_of_user (State.abs_ctl_user hc)] at hline
  obtain ⟨⟨i, k⟩, rest, hl, hi, hrest⟩ := List.map_eq_cons_iff.mp hline.symm
  obtain rfl : i = p.s.idOf a := hi
  exact ⟨k, rest, hl, h.loc (p.s.idOf a, k) (by rw [hl]; exact List.mem_cons_self), hrest⟩

/-- The coroutine that executes is neither ready nor waiting. -/
theorem loc_update (h : p.Shows c) {a : Addr} (hc : p.s.ctl = .user (some a)) (o : Option κ) :
    (∀ x : ℕ × κ, x.1 ∈ p.s.abs.queue →
      Function.update p.loc (p.s.idOf a) o x.1 = p.loc x.1) ∧
    ∀ x ∈ c.blocked, x.1 ≠ p.s.idOf a ∧ Function.update p.loc (p.s.idOf a) o x.1 = some x.2.2 := by
  have hrun := h.inv.ideal.running_of_ctl (State.abs_ctl_user hc)
  refine ⟨?_, ?_⟩
  · intro x hx
    have hne : x.1 ≠ p.s.idOf a := by
      intro e
      cases (e ▸ (h.inv.ideal.ready x.1).mp hx : p.s.abs.InState (p.s.idOf a) .ready).unique hrun
    exact Function.update_of_ne hne _ _
  · intro x hx
    have hne : x.1 ≠ p.s.idOf a := by
      intro e
      obtain ⟨t, ht, hw, -⟩ := (h.blocked x.1 x.2.1).mpr ⟨x.2.2, hx⟩
      cases hrun.unique ⟨t, e ▸ ht, hw⟩
    exact ⟨hne, (Function.update_of_ne hne _ _).trans (h.blockedLoc x hx)⟩

/-- A turn of the loop changes nothing of the tasks: it resumes the head of the line, or finds the
line empty and returns to main. -/
theorem turn (h : p.Shows c) (hc : p.s.ctl = .loop none) :
    ∃ s', StepM p.s .sched s' ∧ Shows { p with s := s' } c ∧
      (if c.line = [] then s'.ctl = .user none else ∃ a, s'.ctl = .user (some a)) := by
  obtain ⟨s', hs⟩ := h.inv.exists_step (a := .sched) ⟨none, hc⟩ trivial (by simp [State.TableFull])
  obtain ⟨hstep, hinv⟩ := h.inv.refines hs
  have hline := h.line
  rw [Sys.current_of_loop (State.abs_ctl_loop hc)] at hline
  have hfifo := hstep.fifo
  cases hq : p.s.runQueue with
  | nil =>
      have hnil : c.line = [] := by simpa [State.abs, hq] using hline.symm
      have he : p.s.event .sched = .runReturned none := by simp [State.event, hq, hc]
      rw [he] at hstep hfifo
      have hctl := hstep.runReturned_ctl
      refine ⟨s', hs, ⟨hinv, h.mem, ?_, h.loc, ?_, h.blockedLoc, h.sorted⟩, ?_⟩
      · rw [Sys.current_of_user hctl]
        exact (hfifo.trans (List.append_nil _)).trans hline
      · intro i j
        rw [hstep.waitsOn_iff h.inv.ideal, ← h.blocked]
        simp
      · rw [if_pos hnil]
        exact State.abs_ctl_main_iff.mp hctl
  | cons co rest =>
      have hne : c.line ≠ [] := by
        intro hnil
        simp [State.abs, hq, hnil] at hline
      obtain ⟨call, he⟩ : ∃ call, p.s.event .sched = .resumed (p.s.idOf co) call := by
        simp only [State.event, hq]
        exact ⟨_, rfl⟩
      rw [he] at hstep hfifo
      have hctl := hstep.resumed_ctl
      refine ⟨s', hs, ⟨hinv, h.mem, ?_, h.loc, ?_, h.blockedLoc, h.sorted⟩, ?_⟩
      · rw [Sys.current_of_user hctl]
        exact (hfifo.trans (List.append_nil _)).trans hline
      · intro i j
        rw [hstep.waitsOn_iff h.inv.ideal, ← h.blocked]
        simp
      · rw [if_neg hne]
        obtain ⟨b, hb, -⟩ := State.executes_iff.mpr hctl
        exact ⟨b, hb⟩

section Body

/-! The body of the coroutine at `a` executes; it is the head of the line. -/

variable {a : Addr} {k : κ} {rest : List (ℕ × κ)} {m : σ}

theorem yields (h : p.Shows c) (hc : p.s.ctl = .user (some a))
    (hl : c.line = (p.s.idOf a, k) :: rest) (hrest : rest.map Prod.fst = p.s.abs.queue) {k' : κ}
    (hf : f c.finished k c.mem = (m, .yield k')) :
    ∃ s', StepM p.s .yield s' ∧
      Shows { p with s := s', mem := m, loc := Function.update p.loc (p.s.idOf a) (some k') }
        (Turns.step f c) := by
  obtain ⟨s', hs⟩ := h.inv.exists_step (a := .yield) ⟨a, hc⟩ trivial (by simp [State.TableFull])
  obtain ⟨hstep, hinv⟩ := h.inv.refines hs
  have hfifo := hstep.fifo
  rw [State.event, State.self_eq hc] at hstep hfifo
  obtain ⟨o, ho⟩ := hstep.yielded_ctl
  obtain ⟨hloc, hblocked⟩ := h.loc_update hc (some k')
  rw [Turns.step_of_yield hl hf]
  refine ⟨s', hs, hinv, rfl, ?_, ?_, ?_, fun x hx => (hblocked x hx).2, h.sorted⟩
  · rw [Sys.current_of_loop ho, List.map_append, hrest]
    exact hfifo
  · intro x hx
    rcases List.mem_append.mp hx with hx | hx
    · exact (hloc x (hrest ▸ List.mem_map_of_mem hx)).trans
        (h.loc x (hl ▸ List.mem_cons_of_mem _ hx))
    · obtain rfl := List.mem_singleton.mp hx
      exact Function.update_self ..
  · intro i j
    rw [hstep.waitsOn_iff h.inv.ideal, ← h.blocked]
    simp

/-- `co_await`, on a coroutine `b` that is unfreed. -/
theorem awaits (h : p.Shows c) (hc : p.s.ctl = .user (some a))
    (hl : c.line = (p.s.idOf a, k) :: rest) (hrest : rest.map Prod.fst = p.s.abs.queue) {k' : κ}
    {b : Addr} (hb : p.s.live b = true)
    (hf : f c.finished k c.mem = (m, .await (p.s.idOf b) k')) :
    ∃ s', StepM p.s (.await (some b)) s' ∧
      Shows { p with s := s', mem := m, loc := Function.update p.loc (p.s.idOf a) (some k') }
        (Turns.step f c) := by
  obtain ⟨s', hs⟩ := h.inv.exists_step (a := .await (some b)) ⟨⟨a, hc⟩, b, rfl, hb⟩ trivial
    (by simp [State.TableFull])
  obtain ⟨hstep, hinv⟩ := h.inv.refines hs
  have hfifo := hstep.fifo
  obtain ⟨hloc, hblocked⟩ := h.loc_update hc (some k')
  have hfin : c.finished (p.s.idOf b) = true ↔ (p.s.mem b).state = .done :=
    (h.finished_iff (h.inv.task_live hb)).trans (h.inv.inState_iff hb)
  have hold : ∀ x ∈ rest, Function.update p.loc (p.s.idOf a) (some k') x.1 = some x.2 := by
    intro x hx
    exact (hloc x (hrest ▸ List.mem_map_of_mem hx)).trans
      (h.loc x (hl ▸ List.mem_cons_of_mem _ hx))
  by_cases hd : (p.s.mem b).state = .done
  · -- the call returns at once
    have he : p.s.event (.await (some b)) = .awaited (p.s.idOf a) (p.s.idOf b) := by
      simp [State.event, hd, State.self_eq hc]
    rw [he] at hstep hfifo
    have hexec := Sys.current_of_user hstep.awaited_ctl
    rw [Turns.step_of_await hl hf (hfin.mpr hd)]
    refine ⟨s', hs, hinv, rfl, ?_, ?_, ?_, fun x hx => (hblocked x hx).2, h.sorted⟩
    · rw [hexec, List.map_cons, hrest]
      exact congrArg _ (hfifo.trans (List.append_nil _))
    · intro x hx
      rcases List.mem_cons.mp hx with rfl | hx
      · exact Function.update_self ..
      · exact hold x hx
    · intro i j
      rw [hstep.waitsOn_iff h.inv.ideal, ← h.blocked]
      simp
  · have he : p.s.event (.await (some b)) = .blocked (p.s.idOf a) (p.s.idOf b) := by
      simp [State.event, hd, State.self_eq hc]
    rw [he] at hstep hfifo
    obtain ⟨o, ho⟩ := hstep.blocked_ctl
    have hnew : ∀ x, x ∈ Support.enter (p.s.idOf a, p.s.idOf b, k') c.blocked ↔
        x = (p.s.idOf a, p.s.idOf b, k') ∨ x ∈ c.blocked :=
      fun x => Support.mem_enter fun y hy => (hblocked y hy).1
    rw [Turns.step_of_block hl hf (by simpa using mt hfin.mp hd)]
    refine ⟨s', hs, hinv, rfl, ?_, hold, ?_, ?_, Support.sorted_enter h.sorted⟩
    · rw [Sys.current_of_loop ho, hrest]
      exact hfifo.trans (List.append_nil _)
    · intro i j
      rw [hstep.waitsOn_iff h.inv.ideal, h.blocked]
      constructor
      · rintro (⟨⟨k₀, hk⟩, -⟩ | hk)
        · exact ⟨k₀, (hnew _).mpr (.inr hk)⟩
        · cases hk
          exact ⟨k', (hnew _).mpr (.inl rfl)⟩
      · rintro ⟨k₀, hk⟩
        rcases (hnew _).mp hk with hk | hk
        · cases hk
          exact .inr rfl
        · exact .inl ⟨⟨k₀, hk⟩, by simp⟩
    · intro x hx
      rcases (hnew x).mp hx with rfl | hx
      · exact Function.update_self ..
      · exact (hblocked x hx).2

/-- The end of the body. -/
theorem returns (h : p.Shows c) (hc : p.s.ctl = .user (some a))
    (hl : c.line = (p.s.idOf a, k) :: rest) (hrest : rest.map Prod.fst = p.s.abs.queue)
    (hord : p.s.WakesInOrder) (hf : f c.finished k c.mem = (m, .ret)) :
    ∃ s', StepM p.s .ret s' ∧
      Shows { p with s := s', mem := m, loc := Function.update p.loc (p.s.idOf a) none }
        (Turns.step f c) := by
  obtain ⟨s', hs⟩ := h.inv.exists_step (a := .ret) ⟨a, hc⟩ trivial (by simp [State.TableFull])
  obtain ⟨hstep, hinv⟩ := h.inv.refines hs
  have hfifo := hstep.fifo
  obtain ⟨hloc, hblocked⟩ := h.loc_update hc none
  have he : p.s.event .ret = .finished (p.s.idOf a) ((p.s.waiters a).map p.s.idOf) := by
    simp [State.event, State.self_eq hc, hc]
  rw [he] at hstep hfifo
  obtain ⟨-, -, o, ho⟩ := hstep.finished_inv
  -- both orders are those of the ids
  have hwoken : (p.s.waiters a).map p.s.idOf = (c.woken (p.s.idOf a)).map Prod.fst := by
    have hmap : (c.woken (p.s.idOf a)).map Prod.fst =
        (c.blocked.filter fun x => x.2.1 = p.s.idOf a).map Prod.fst := by
      simp [Turns.woken, List.map_map, Function.comp_def]
    have hsorted : ((c.blocked.filter fun x => x.2.1 = p.s.idOf a).map Prod.fst).SortedLT :=
      List.sortedLT_iff_pairwise.mpr
        (h.sorted.pairwise.sublist (List.filter_sublist.map Prod.fst))
    have hmem : ∀ w, w ∈ (p.s.waiters a).map p.s.idOf ↔
        w ∈ (c.blocked.filter fun x => x.2.1 = p.s.idOf a).map Prod.fst := by
      intro w
      rw [h.inv.mem_waiters_ids (h.inv.running_of_ctl hc).1, h.blocked]
      simp
    rw [hmap]
    exact List.Subset.antisymm_of_sortedLT (fun w hw => (hmem w).mp hw)
      (fun w hw => (hmem w).mpr hw) (hord a hc) hsorted
  rw [Turns.step_of_ret hl hf]
  refine ⟨s', hs, hinv, rfl, ?_, ?_, ?_, ?_, ?_⟩
  · rw [Sys.current_of_loop ho, List.map_append, hrest, ← hwoken]
    exact hfifo
  · intro x hx
    rcases List.mem_append.mp hx with hx | hx
    · exact (hloc x (hrest ▸ List.mem_map_of_mem hx)).trans
        (h.loc x (hl ▸ List.mem_cons_of_mem _ hx))
    · obtain ⟨y, hy, rfl⟩ := List.mem_map.mp hx
      exact (hblocked y (List.mem_of_mem_filter hy)).2
  · intro i j
    rw [hstep.waitsOn_iff h.inv.ideal, h.blocked]
    simp only [List.mem_filter, decide_eq_true_eq, exists_and_right]
    simp
    exact fun _ _ => not_congr eq_comm
  · intro x hx
    exact (hblocked x (List.mem_of_mem_filter hx)).2
  · exact List.sortedLT_iff_pairwise.mpr
      (h.sorted.pairwise.sublist (List.filter_sublist.map Prod.fst))

end Body

/-- Main creates a coroutine, which goes to the end of the line. -/
theorem creates (h : p.Shows c) (hc : p.s.ctl = .user none)
    (hcount : p.s.all.length < maxCoroutines) (k : κ) {x : Addr} (hx : p.s.live x = false)
    (stack : Addr) (main : List κ) :
    ∃ s', StepM p.s (.create (some k) none 0 (.ok x stack)) s' ∧ s'.ctl = .user none ∧
      (∃ t, s'.abs.task (p.s.all.length + 1) = some t ∧ t.freed = false) ∧
      Shows { p with
          s := s'
          loc := Function.update p.loc (p.s.all.length + 1) (some k)
          main := main }
        { c with line := c.line ++ [(p.s.all.length + 1, k)] } := by
  obtain ⟨s', hs⟩ := h.inv.exists_step (a := .create (some k) none 0 (.ok x stack))
    ⟨⟨none, hc⟩, Option.some_ne_none k, hx⟩ trivial fun hfull => hcount.ne hfull.2
  obtain ⟨hstep, hinv⟩ := h.inv.refines hs
  have hfifo := hstep.fifo
  rw [State.event] at hstep hfifo
  obtain ⟨hnone, hnew⟩ := hstep.created_inv h.inv.ideal
  have hctl := hstep.created_ctl.trans (State.abs_ctl_user hc)
  -- the new id is nobody's
  have hid : ∀ {j : ℕ}, p.s.abs.task j ≠ none → j ≠ p.s.all.length + 1 := fun hj e => hj (e ▸ hnone)
  have hline := h.line
  rw [Sys.current_of_user (State.abs_ctl_user hc)] at hline
  refine ⟨s', hs, State.abs_ctl_main_iff.mp hctl, ⟨_, hnew, rfl⟩, hinv, h.mem, ?_, ?_, ?_, ?_,
    h.sorted⟩
  · rw [Sys.current_of_user hctl, List.map_append, ← hline]
    exact hfifo
  · intro y hy
    rcases List.mem_append.mp hy with hy | hy
    · have hq : y.1 ∈ p.s.abs.queue := by
        have : y.1 ∈ c.line.map Prod.fst := List.mem_map_of_mem hy
        rwa [← hline] at this
      obtain ⟨t, ht, -⟩ := (h.inv.ideal.ready y.1).mp hq
      exact (Function.update_of_ne (hid (by simp [ht])) _ _).trans (h.loc y hy)
    · obtain rfl := List.mem_singleton.mp hy
      exact Function.update_self ..
  · intro i j
    rw [hstep.waitsOn_iff h.inv.ideal, ← h.blocked]
    simp
  · intro y hy
    obtain ⟨t, ht, -⟩ := (h.blocked y.1 y.2.1).mpr ⟨y.2.2, hy⟩
    exact (Function.update_of_ne (hid (by simp [ht])) _ _).trans (h.blockedLoc y hy)

/-- Main calls `co_run`. -/
theorem calls (h : p.Shows c) (hc : p.s.ctl = .user none) (called : Bool) :
    ∃ s', StepM p.s .run s' ∧ s'.ctl = .loop none ∧
      Shows { p with s := s', called := called } c := by
  obtain ⟨s', hs⟩ := h.inv.exists_step (a := .run) ⟨none, hc⟩ hc (by simp [State.TableFull])
  obtain ⟨hstep, hinv⟩ := h.inv.refines hs
  have hfifo := hstep.fifo
  have he : p.s.event .run = .runCalled none := by simp [State.event, hc]
  rw [he] at hstep hfifo
  have hctl := hstep.runCalled_ctl
  have hline := h.line
  rw [Sys.current_of_user (State.abs_ctl_user hc)] at hline
  refine ⟨s', hs, ?_, hinv, h.mem, ?_, h.loc, ?_, h.blockedLoc, h.sorted⟩
  · obtain ⟨who, hw⟩ : ∃ who, s'.ctl = .loop who := by
      cases hcs : s'.ctl with
      | user who => cases (State.abs_ctl_user hcs).symm.trans hctl
      | loop who => exact ⟨who, rfl⟩
    rw [hw, hinv.loop_main hw]
  · rw [Sys.current_of_loop hctl, ← hline]
    exact hfifo.trans (List.append_nil _)
  · intro i j
    rw [hstep.waitsOn_iff h.inv.ideal, ← h.blocked]
    simp

end Shows

/-- The calls of bodies in the next step, one or none. -/
def calls (p : Process σ κ) : ℕ := if p.s.abs.current.isSome then 1 else 0

end Process

end CCoroutine
