import CCoroutine.Clients.Lockstep

/-!
# Clients — Launches

`src/coroutine.c` executes a program as tasks taking turns: main creates the coroutines and calls
`co_run`, and from then on every call of a body is one step of the tasks
(`Launch.program_takes_turns`).  So what holds of the tasks at every step holds of the shared memory
at every step of the program (`Launch.always`), and `co_run` returns exactly when the line becomes
empty (`Launch.completes`, `Launch.diverges`).

For bodies that only yield, `Launch.always_of_kept` and `Launch.exists_settled` give what a program
does from what one turn keeps and what it decreases.
-/

namespace CCoroutine
open CCoroutine.Ideal (Task Sys Ev)
open Support (Call Script Turns Reachable)

namespace Launch

variable {σ κ : Type} {bodies : List κ} {L : Launch bodies} {f : Script σ κ} {m : σ} {n : ℕ}
  {p : Process σ κ} {c : Turns σ κ}

/-- The calls of bodies in the first `n` steps. -/
def calls (L : Launch bodies) (f : Script σ κ) (m : σ) : ℕ → ℕ
  | 0 => 0
  | n + 1 => ((L.after f m n).toOption.map Process.calls).getD 0 + L.calls f m n

/-- The program is at the step `c` of the tasks, `n` of the coroutines have been created, and none
of them has been freed. -/
structure Holds (L : Launch bodies) (n : ℕ) (p : Process σ κ) (c : Turns σ κ) : Prop extends
    p.Shows c where
  count : p.s.all.length = L.s.all.length + n
  unfreed : ∀ j, L.s.all.length < j → j ≤ L.s.all.length + n →
    ∃ t, p.s.abs.task j = some t ∧ t.freed = false

namespace Holds

/-- A step that creates and frees nothing. -/
theorem keep (h : L.Holds n p c) {a : Act κ Unit} {p' : Process σ κ} (hs : StepM p.s a p'.s)
    (hnew : a.newAddr = none) (hfree : ∀ co, a ≠ .free co) {c' : Turns σ κ} (h' : p'.Shows c') :
    L.Holds n p' c' ∧ p'.s.all = p.s.all := by
  have hall : p'.s.all = p.s.all := by simpa [hnew] using State.step_all hs.1.2
  refine ⟨⟨h', hall ▸ h.count, ?_⟩, hall⟩
  intro j hj hn
  obtain ⟨t, ht, hf⟩ := h.unfreed j hj hn
  exact (h.inv.refines hs).1.unfreed h.inv.ideal ht hf (State.event_ne_freed hfree j)

/-- The handle of a coroutine that main has created. -/
theorem handle (h : L.Holds bodies.length p c) {j : ℕ} (hj : L.Handle j) :
    ∃ b, p.s.live b = true ∧ p.s.idOf b = j ∧ p.s.addrOf j = some b := by
  obtain ⟨t, ht, hf⟩ := h.unfreed j hj.1 hj.2
  rcases h.inv.addr.taskAt_cases ht with ⟨r, -, rfl⟩ | ⟨b, hb, hid, -⟩
  · cases hf
  · exact ⟨b, hb, hid, hid ▸ h.inv.addr.registered b hb⟩

/-- **A call of a body is a step of the tasks.** -/
theorem body (h : L.Holds bodies.length p c) (huse : f.Uses L.Handle) (hord : p.s.WakesInOrder)
    {a : Addr} (hc : p.s.ctl = .user (some a)) (al : Addr × Addr) :
    ∃ p' act, p.exec f al = .ok p' ∧ StepM p.s act p'.s ∧ p'.main = p.main ∧
      p'.called = p.called ∧ L.Holds bodies.length p' (Turns.step f c) ∧ p'.s.all = p.s.all := by
  obtain ⟨k, rest, hl, hloc, hrest⟩ := h.line_cons hc
  have hcode : f p.finished k p.mem = f c.finished k c.mem := by
    rw [h.mem]
    refine huse.fin _ _ _ _ fun j hj => ?_
    obtain ⟨t, ht, hf⟩ := h.unfreed j hj.1 hj.2
    exact h.finished_eq ht hf
  cases hf : f c.finished k c.mem with
  | mk m' call =>
      have hexec : ∀ {s'}, p.s.step (p.act call) = .ok s' → p.exec f al = .ok
          { p with s := s', mem := m', loc := Function.update p.loc (p.s.idOf a) call.place } :=
        Process.exec_of_body hc hloc (hcode.trans hf)
      cases call with
      | yield k' =>
          obtain ⟨s', hs, hshows⟩ := h.yields hc hl hrest hf
          exact ⟨_, _, hexec hs.1.2, hs, rfl, rfl, h.keep hs rfl (by simp) hshows⟩
      | await j k' =>
          obtain ⟨b, hb, rfl, haddr⟩ := h.handle (huse.await c.finished k c.mem j k' (by rw [hf]))
          obtain ⟨s', hs, hshows⟩ := h.awaits hc hl hrest hb hf
          refine ⟨_, _, hexec ?_, hs, rfl, rfl, h.keep hs rfl (by simp) hshows⟩
          rw [Process.act, haddr]
          exact hs.1.2
      | ret =>
          obtain ⟨s', hs, hshows⟩ := h.returns hc hl hrest hord hf
          exact ⟨_, _, hexec hs.1.2, hs, rfl, rfl, h.keep hs rfl (by simp) hshows⟩

end Holds

/-! ### Whole runs -/

/-- Main has created the coroutines and called `co_run`. -/
structure Runs (L : Launch bodies) (f : Script σ κ) (p : Process σ κ) (c : Turns σ κ) : Prop extends
    L.Holds bodies.length p c where
  order : p.s.all.Nodup ∨ Turns.Singly f c
  main : p.main = []
  called : p.called = true
  rest : p.s.ctl = .user none → c.line = []

namespace Runs

/-- The waiters of a coroutine that returns are found in order: the table is in order, or there is
one at most. -/
theorem wakesInOrder (h : L.Runs f p c) : p.s.WakesInOrder := by
  rcases h.order with hnd | hone
  · exact h.inv.wakesInOrder hnd
  · intro a hc
    have hsub : (p.s.waiters a).map p.s.idOf ⊆ (c.woken (p.s.idOf a)).map Prod.fst := by
      intro w hw
      rw [h.inv.mem_waiters_ids (h.inv.running_of_ctl hc).1, h.blocked] at hw
      obtain ⟨k, hk⟩ := hw
      exact List.mem_map.mpr
        ⟨(w, k), List.mem_map.mpr ⟨_, List.mem_filter.mpr ⟨hk, by simp⟩, rfl⟩, rfl⟩
    have hlen := (List.subperm_of_subset (h.inv.nodup_waiters_ids a) hsub).length_le
    have hle : ((p.s.waiters a).map p.s.idOf).length ≤ 1 := by
      rw [List.length_map Prod.fst] at hlen
      exact hlen.trans (hone 0 _)
    rw [List.sortedLT_iff_pairwise, List.pairwise_iff_getElem]
    intro i j hi hj hij
    omega

/-- **One step of the program**: a step of the tasks when a body executes, and otherwise none. -/
theorem exec (h : L.Runs f p c) (huse : f.Uses L.Handle) (al : Addr × Addr) :
    ∃ p', p.exec f al = .ok p' ∧ L.Runs f p' ((Turns.step f)^[p.calls] c) := by
  cases hc : p.s.ctl with
  | loop who =>
      obtain rfl := h.inv.loop_main hc
      obtain ⟨s', hs, hshows, hctl⟩ := h.turn hc
      have hcalls : p.calls = 0 := by
        simp [Process.calls, Sys.current_of_loop (State.abs_ctl_loop hc)]
      refine ⟨{ p with s := s' }, Process.exec_of_loop hc hs.1.2, ?_⟩
      rw [hcalls, Function.iterate_zero_apply]
      obtain ⟨h', hall⟩ := h.keep hs rfl (by simp) hshows
      refine ⟨h', hall ▸ h.order, h.main, h.called, ?_⟩
      intro hmain
      by_contra hne
      rw [if_neg hne] at hctl
      obtain ⟨a, ha⟩ := hctl
      cases hmain.symm.trans ha
  | user who =>
      cases who with
      | none =>
          have hcalls : p.calls = 0 := by
            simp [Process.calls, Sys.current_of_user (State.abs_ctl_user hc)]
          refine ⟨p, Process.exec_of_returned ⟨h.called, hc⟩ h.main, ?_⟩
          rw [hcalls]
          exact h
      | some a =>
          have hcalls : p.calls = 1 := by
            simp [Process.calls, Sys.current_of_user (State.abs_ctl_user hc)]
          obtain ⟨p', act, he, hs, hmain, hcalled, h', hall⟩ := h.body huse h.wakesInOrder hc al
          refine ⟨p', he, ?_⟩
          rw [hcalls]
          refine ⟨h', hall ▸ h.order.imp_right Turns.Singly.step, hmain.trans h.main,
            hcalled.trans h.called, ?_⟩
          -- control does not go from a body to main
          intro hmain'
          rcases (h.inv.refines hs).1.main_of (State.abs_ctl_user hmain') with hA | ⟨⟨w, hA⟩, -⟩
          · cases (State.abs_ctl_user hc).symm.trans hA
          · cases (State.abs_ctl_user hc).symm.trans hA

/-- A body makes a call within two steps, unless the line is empty. -/
theorem exists_call (h : L.Runs f p c) (hl : c.line ≠ []) (al : Addr × Addr) :
    p.calls = 1 ∨ ∃ p', p.exec f al = .ok p' ∧ p.calls = 0 ∧ p'.calls = 1 := by
  cases hc : p.s.ctl with
  | loop who =>
      obtain rfl := h.inv.loop_main hc
      obtain ⟨s', hs, -, hctl⟩ := h.turn hc
      rw [if_neg hl] at hctl
      obtain ⟨a, ha⟩ := hctl
      refine .inr ⟨{ p with s := s' }, Process.exec_of_loop hc hs.1.2, ?_, ?_⟩
      · simp [Process.calls, Sys.current_of_loop (State.abs_ctl_loop hc)]
      · simp [Process.calls, Sys.current_of_user (State.abs_ctl_user ha)]
  | user who =>
      cases who with
      | none => exact absurd (h.rest hc) hl
      | some a =>
          left
          simp [Process.calls, Sys.current_of_user (State.abs_ctl_user hc)]

/-- With the line empty, `co_run` returns within one step. -/
theorem exists_return (h : L.Runs f p c) (hl : c.line = []) (al : Addr × Addr) :
    ∃ p', p.exec f al = .ok p' ∧ p'.Returned := by
  cases hc : p.s.ctl with
  | loop who =>
      obtain rfl := h.inv.loop_main hc
      obtain ⟨s', hs, -, hctl⟩ := h.turn hc
      rw [if_pos hl] at hctl
      exact ⟨{ p with s := s' }, Process.exec_of_loop hc hs.1.2, h.called, hctl⟩
  | user who =>
      cases who with
      | none => exact ⟨p, Process.exec_of_returned ⟨h.called, hc⟩ h.main, h.called, hc⟩
      | some a =>
          obtain ⟨k, rest, hcons, -⟩ := h.line_cons hc
          rw [hl] at hcons
          cases hcons

end Runs

/-- Main is creating the coroutines. -/
structure Creates (L : Launch bodies) (m : σ) (n : ℕ) (p : Process σ κ) : Prop extends
    L.Holds n p { L.turns m with line := (L.turns m).line.take n } where
  ctl : p.s.ctl = .user none
  main : p.main = bodies.drop n
  called : p.called = false
  live : ∀ a, p.s.live a = true → L.s.live a = true ∨ ∃ i < n, a = (L.alloc i).1
  all : p.s.all = L.s.all ++ (List.range n).map fun i => (L.alloc i).1

theorem line_eq (L : Launch bodies) (m : σ) (hn : n < bodies.length) :
    (L.turns m).line.take (n + 1) =
      (L.turns m).line.take n ++ [(L.s.all.length + n + 1, bodies[n])] := by
  rw [List.take_succ_eq_append_getElem (by simpa [turns] using hn)]
  simp [turns, Nat.add_right_comm]

theorem NoReuse.nodup (h : L.NoReuse) (hn : n ≤ bodies.length) :
    (L.s.all ++ (List.range n).map fun i => (L.alloc i).1).Nodup := by
  refine List.Nodup.append h.1 ?_ ?_
  · refine List.pairwise_map.mpr (List.pairwise_lt_range.imp_of_mem fun {i j} _ hj hij => ?_)
    exact (L.unused j (lt_of_lt_of_le (List.mem_range.mp hj) hn)).2 i hij
  · intro a ha ha'
    obtain ⟨i, hi, rfl⟩ := List.mem_map.mp ha'
    exact h.2 i (lt_of_lt_of_le (List.mem_range.mp hi) hn) ha

theorem creates_zero (L : Launch bodies) (m : σ) :
    L.Creates m 0 (Process.mk L.s m (fun _ => none) bodies false) := by
  have hinv := State.invM_of_reachable L.reachable
  have hidle : ∀ {k st}, L.s.abs.InState k st → st = .done := by
    rintro k st ⟨t, ht, rfl⟩
    exact L.idle k t ht
  refine ⟨⟨⟨hinv, rfl, ?_, ?_, ?_, ?_, ?_⟩, rfl, ?_⟩, L.main, rfl, rfl, fun a ha => .inl ha,
    by simp⟩
  · rw [Sys.current_of_user (State.abs_ctl_user L.main)]
    refine List.eq_nil_iff_forall_not_mem.mpr fun k hk => ?_
    cases hidle ((hinv.ideal.ready k).mp (by simpa using hk))
  · simp
  · intro i j
    constructor
    · rintro ⟨t, ht, hw, -⟩
      cases hidle ⟨t, ht, hw⟩
    · rintro ⟨k, hk⟩
      cases hk
  · simp [turns]
  · exact List.sortedLT_iff_pairwise.mpr .nil
  · intro j hj hn
    exact absurd (lt_of_lt_of_le hj hn) (lt_irrefl _)

namespace Creates

/-- Main calls `co_create`. -/
theorem next (h : L.Creates m n p) (hn : n < bodies.length) :
    ∃ p', p.exec f (L.alloc n) = .ok p' ∧ L.Creates m (n + 1) p' := by
  have hcount : p.s.all.length < maxCoroutines := by
    rw [h.count]
    exact lt_of_lt_of_le (Nat.add_lt_add_left hn _) L.room
  have hdead : p.s.live (L.alloc n).1 = false := by
    by_contra hlive
    rcases h.live _ (by simpa using hlive) with hl | ⟨i, hi, e⟩
    · rw [(L.unused n hn).1] at hl
      cases hl
    · exact (L.unused n hn).2 i hi e.symm
  obtain ⟨s', hs, hctl, hnew, hshows⟩ :=
    h.creates h.ctl hcount bodies[n] hdead (L.alloc n).2 (bodies.drop (n + 1))
  have hmain : p.main = bodies[n] :: bodies.drop (n + 1) := by
    rw [h.main, List.drop_eq_getElem_cons hn]
  have hall : s'.all = L.s.all ++ (List.range (n + 1)).map fun i => (L.alloc i).1 := by
    rw [State.step_all hs.1.2, h.all, List.range_succ, List.map_append, List.append_assoc]
    rfl
  refine ⟨_, Process.exec_of_create h.ctl hmain hs.1.2, ⟨?_, ?_, ?_⟩, hctl, rfl, h.called, ?_, hall⟩
  · rw [line_eq L m hn, ← h.count]
    exact hshows
  · rw [hall, List.length_append, List.length_map, List.length_range]
  · intro j hj hle
    by_cases e : j = p.s.all.length + 1
    · exact e ▸ hnew
    · rw [h.count] at e
      obtain ⟨t, ht, hf⟩ := h.unfreed j hj (by omega)
      exact (h.inv.refines hs).1.unfreed h.inv.ideal ht hf (State.event_ne_freed (by simp) j)
  · intro a ha
    rcases State.live_before hs.1.2 ha with ⟨hl, -⟩ | hnew
    · rcases h.live a hl with hl | ⟨i, hi, e⟩
      · exact .inl hl
      · exact .inr ⟨i, Nat.lt_succ_of_lt hi, e⟩
    · exact .inr ⟨n, Nat.lt_succ_self n, (Option.some.inj hnew).symm⟩

/-- Main calls `co_run`. -/
theorem runs (h : L.Creates m bodies.length p) (hord : L.NoReuse ∨ Turns.Singly f (L.turns m))
    (al : Addr × Addr) : ∃ p', p.exec f al = .ok p' ∧ L.Runs f p' (L.turns m) := by
  obtain ⟨s', hs, hctl, hshows⟩ := h.calls h.ctl true
  have hmain : p.main = [] := by rw [h.main, List.drop_length]
  have hline : (L.turns m).line.take bodies.length = (L.turns m).line :=
    List.take_of_length_le (by simp [turns])
  have hholds : L.Holds bodies.length { p with s := s', called := true } _ ∧ s'.all = p.s.all :=
    h.keep hs rfl (by simp) hshows
  rw [hline] at hholds
  refine ⟨_, Process.exec_of_run h.ctl hmain h.called hs.1.2, hholds.1, ?_, hmain, rfl, ?_⟩
  · refine hord.imp_left fun hr => ?_
    rw [hholds.2, h.all]
    exact hr.nodup le_rfl
  intro hc
  cases hctl.symm.trans hc

end Creates

theorem after_succ (h : L.after f m n = .ok p) :
    L.after f m (n + 1) = p.exec f (L.alloc n) ∧ L.calls f m (n + 1) = p.calls + L.calls f m n := by
  refine ⟨Process.run_succ h, ?_⟩
  rw [calls, h]
  rfl

theorem exists_creates (L : Launch bodies) (f : Script σ κ) (m : σ) (hn : n ≤ bodies.length) :
    ∃ p, L.after f m n = .ok p ∧ L.Creates m n p ∧ L.calls f m n = 0 := by
  induction n with
  | zero => exact ⟨_, rfl, L.creates_zero m, rfl⟩
  | succ n ih =>
      obtain ⟨p, hp, h, hcalls⟩ := ih (Nat.le_of_succ_le hn)
      obtain ⟨p', he, h'⟩ := h.next hn
      obtain ⟨hafter, hcalls'⟩ := after_succ hp
      have hnone : p.calls = 0 := by
        simp [Process.calls, Sys.current_of_user (State.abs_ctl_user h.ctl)]
      exact ⟨p', hafter.trans he, h', by rw [hcalls', hnone, hcalls]⟩

/-- **The program takes the steps of the tasks**, one for each call of a body. -/
theorem exists_runs (L : Launch bodies) {f : Script σ κ} (m : σ) (huse : f.Uses L.Handle)
    (hord : L.NoReuse ∨ Turns.Singly f (L.turns m)) (n : ℕ) :
    ∃ p, L.after f m (bodies.length + 1 + n) = .ok p ∧
      L.Runs f p ((Turns.step f)^[L.calls f m (bodies.length + 1 + n)] (L.turns m)) := by
  induction n with
  | zero =>
      obtain ⟨p, hp, h, hcalls⟩ := L.exists_creates f m le_rfl
      obtain ⟨p', he, h'⟩ := h.runs hord (L.alloc bodies.length)
      obtain ⟨hafter, hcalls'⟩ := after_succ hp
      have hnone : p.calls = 0 := by
        simp [Process.calls, Sys.current_of_user (State.abs_ctl_user h.ctl)]
      refine ⟨p', hafter.trans he, ?_⟩
      rw [Nat.add_zero, hcalls', hnone, hcalls]
      exact h'
  | succ n ih =>
      obtain ⟨p, hp, h⟩ := ih
      obtain ⟨p', he, h'⟩ := h.exec huse (L.alloc (bodies.length + 1 + n))
      obtain ⟨hafter, hcalls⟩ := after_succ hp
      refine ⟨p', hafter.trans he, ?_⟩
      rw [← Nat.add_assoc, hcalls, Function.iterate_add_apply]
      exact h'

/-- The bodies make `n` calls, unless the line is empty before. -/
theorem exists_calls (L : Launch bodies) {f : Script σ κ} (m : σ) (huse : f.Uses L.Handle)
    (hord : L.NoReuse ∨ Turns.Singly f (L.turns m)) {n : ℕ}
    (hl : ∀ i < n, ((Turns.step f)^[i] (L.turns m)).line ≠ []) :
    ∃ N, L.calls f m (bodies.length + 1 + N) = n := by
  induction n with
  | zero =>
      obtain ⟨p, hp, h, hcalls⟩ := L.exists_creates f m le_rfl
      refine ⟨0, ?_⟩
      rw [Nat.add_zero, (after_succ hp).2, hcalls]
      simp [Process.calls, Sys.current_of_user (State.abs_ctl_user h.ctl)]
  | succ n ih =>
      obtain ⟨N, hN⟩ := ih fun i hi => hl i (Nat.lt_succ_of_lt hi)
      obtain ⟨p, hp, h⟩ := L.exists_runs m huse hord N
      rw [hN] at h
      obtain ⟨hafter, hcalls⟩ := after_succ hp
      rcases h.exists_call (hl n (Nat.lt_succ_self n)) (L.alloc (bodies.length + 1 + N)) with
        h1 | ⟨p', he, h0, h1⟩
      · exact ⟨N + 1, by rw [← Nat.add_assoc, hcalls, h1, hN, Nat.add_comm]⟩
      · have hcalls' := (after_succ (hafter.trans he)).2
        exact ⟨N + 2, by
          rw [show bodies.length + 1 + (N + 2) = bodies.length + 1 + N + 1 + 1 from rfl, hcalls',
            h1, hcalls, h0, hN, Nat.zero_add, Nat.add_comm]⟩

/-- A step of the program, in either phase. -/
theorem exists_shows (L : Launch bodies) {f : Script σ κ} (m : σ) (huse : f.Uses L.Handle)
    (hord : L.NoReuse ∨ Turns.Singly f (L.turns m)) (N : ℕ) :
    ∃ p, L.after f m N = .ok p ∧ (p.called = true ↔ bodies.length < N) ∧
      p.mem = ((Turns.step f)^[L.calls f m N] (L.turns m)).mem ∧
      (p.called = true → p.Shows ((Turns.step f)^[L.calls f m N] (L.turns m))) ∧
      (p.Returned → ((Turns.step f)^[L.calls f m N] (L.turns m)).line = []) := by
  by_cases hN : N ≤ bodies.length
  · obtain ⟨p, hp, h, hcalls⟩ := L.exists_creates f m hN
    have hnot : p.called ≠ true := by simp [h.called]
    rw [hcalls]
    exact ⟨p, hp, iff_of_false hnot hN.not_gt, h.mem, fun hc => absurd hc hnot,
      fun hr => absurd hr.1 hnot⟩
  · obtain ⟨n, rfl⟩ := Nat.exists_eq_add_of_lt (not_le.mp hN)
    rw [show bodies.length + n + 1 = bodies.length + 1 + n by omega] at hN ⊢
    obtain ⟨p, hp, h⟩ := L.exists_runs m huse hord n
    exact ⟨p, hp, iff_of_true h.called (not_le.mp hN), h.mem, fun _ => h.toShows,
      fun hr => h.rest hr.2⟩

/-- A program whose `co_run` has returned stays as it is. -/
theorem after_of_returned {N₀ : ℕ} (hp : L.after f m N₀ = .ok p) (hr : p.Returned)
    (hmain : p.main = []) {N : ℕ} (hN : N₀ ≤ N) : L.after f m N = .ok p := by
  induction hN with
  | refl => exact hp
  | step _ ih => exact (after_succ ih).1.trans (Process.exec_of_returned hr hmain)

/-- When the line becomes empty, `co_run` returns. -/
theorem returns (L : Launch bodies) {f : Script σ κ} (m : σ) (huse : f.Uses L.Handle)
    (hord : L.NoReuse ∨ Turns.Singly f (L.turns m)) {n : ℕ}
    (hn : ((Turns.step f)^[n] (L.turns m)).line = []) :
    ∃ N₀ p, p.Returned ∧ p.Shows ((Turns.step f)^[n] (L.turns m)) ∧
      ∀ N, N₀ ≤ N → L.after f m N = .ok p := by
  classical
  have hex : ∃ i, ((Turns.step f)^[i] (L.turns m)).line = [] := ⟨n, hn⟩
  -- the first time it is empty; nothing changes after that
  have hnil := Nat.find_spec hex
  have hlast : (Turns.step f)^[n] (L.turns m) = (Turns.step f)^[Nat.find hex] (L.turns m) := by
    obtain ⟨d, hd⟩ := Nat.exists_eq_add_of_le' (Nat.find_min' hex hn)
    rw [hd, Function.iterate_add_apply]
    exact Function.iterate_fixed (Turns.step_of_nil hnil) d
  obtain ⟨N, hN⟩ := L.exists_calls m huse hord fun i hi => Nat.find_min hex hi
  obtain ⟨p, hp, h⟩ := L.exists_runs m huse hord N
  rw [hN] at h
  obtain ⟨p', he, hr⟩ := h.exists_return hnil (L.alloc (bodies.length + 1 + N))
  obtain ⟨p'', he', h'⟩ := h.exec huse (L.alloc (bodies.length + 1 + N))
  obtain rfl : p' = p'' := Except.ok.inj (he.symm.trans he')
  rw [Function.iterate_fixed (Turns.step_of_nil hnil)] at h'
  have hafter := (after_succ hp).1.trans he
  exact ⟨_, p', hr, hlast ▸ h'.toShows, fun _ hN' => after_of_returned hafter hr h'.main hN'⟩

/-- **The library executes a program as tasks taking turns.**  No call faults.  From main's call of
`co_run` on, the program is at the step of the tasks whose number is the number of calls its bodies
have made; the bodies go on making calls while the line is not empty.  `co_run` has returned only
when the line is empty, and when it is, `co_run` returns. -/
theorem program_takes_turns (L : Launch bodies) {f : Script σ κ} (m : σ) (huse : f.Uses L.Handle)
    (hord : L.NoReuse ∨ Turns.Singly f (L.turns m)) :
    (∀ N, ∃ p, L.after f m N = .ok p ∧ (p.called = true ↔ bodies.length < N) ∧
      (p.called = true → p.Shows ((Turns.step f)^[L.calls f m N] (L.turns m))) ∧
      (p.Returned → ((Turns.step f)^[L.calls f m N] (L.turns m)).line = [])) ∧
    (∀ n, (∀ i < n, ((Turns.step f)^[i] (L.turns m)).line ≠ []) →
      ∃ N, bodies.length < N ∧ L.calls f m N = n) ∧
    ∀ n, ((Turns.step f)^[n] (L.turns m)).line = [] →
      ∃ N₀ p, p.Returned ∧ p.Shows ((Turns.step f)^[n] (L.turns m)) ∧
        ∀ N, N₀ ≤ N → L.after f m N = .ok p := by
  refine ⟨?_, ?_, fun n hn => L.returns m huse hord hn⟩
  · intro N
    obtain ⟨p, hp, hcalled, -, hshows, hret⟩ := L.exists_shows m huse hord N
    exact ⟨p, hp, hcalled, hshows, hret⟩
  · intro n hn
    obtain ⟨N, hN⟩ := L.exists_calls m huse hord hn
    exact ⟨_, by omega, hN⟩

/-- The first coroutine awaits the second one; each counts itself. -/
def firstAwaits : Script ℕ Bool := fun _ k m => if k then (m, .await 2 false) else (m + 1, .ret)

theorem program_takes_turns_firstAwaits :
    ∃ N₀ p, p.Returned ∧ p.mem = 2 ∧ ∀ N, N₀ ≤ N →
      (first [true, false] (by decide)).after firstAwaits 0 N = .ok p := by
  have huse : firstAwaits.Uses (first [true, false] (by decide)).Handle := by
    refine ⟨?_, fun _ _ _ _ _ => rfl⟩
    intro fin k m j k' h
    cases k with
    | false => cases h
    | true =>
        cases h
        exact ⟨Nat.two_pos, le_rfl⟩
  have hreuse : (first [true, false] (by decide)).NoReuse :=
    ⟨List.nodup_nil, fun _ _ => List.not_mem_nil⟩
  obtain ⟨N₀, p, hr, hs, hN⟩ :=
    (program_takes_turns (first [true, false] (by decide)) 0 huse (.inl hreuse)).2.2 3 rfl
  exact ⟨N₀, p, hr, hs.mem, hN⟩

/-! ### What holds of a program -/

/-- No call faults, and the memory satisfies `P` at every step. -/
def Always (L : Launch bodies) (f : Script σ κ) (m : σ) (P : σ → Prop) : Prop :=
  ∀ N, ∃ p, L.after f m N = .ok p ∧ P p.mem

/-- `co_run` returns with every coroutine done, and the memory satisfies `P`. -/
def Completes (L : Launch bodies) (f : Script σ κ) (m : σ) (P : σ → Prop) : Prop :=
  ∃ N₀ p, p.Returned ∧ (∀ k t, p.s.taskAt k = some t → t.state = .done) ∧ P p.mem ∧
    ∀ N, N₀ ≤ N → L.after f m N = .ok p

/-- No call faults, and `co_run` never returns. -/
def Diverges (L : Launch bodies) (f : Script σ κ) (m : σ) : Prop :=
  ∀ N, ∃ p, L.after f m N = .ok p ∧ ¬ p.Returned

theorem always (L : Launch bodies) {f : Script σ κ} {m : σ} (huse : f.Uses L.Handle)
    (hord : L.NoReuse ∨ Turns.Singly f (L.turns m)) {P : σ → Prop}
    (h : ∀ n, P ((Turns.step f)^[n] (L.turns m)).mem) : L.Always f m P := by
  intro N
  obtain ⟨p, hp, -, hmem, -⟩ := L.exists_shows m huse hord N
  exact ⟨p, hp, hmem ▸ h _⟩

theorem completes (L : Launch bodies) {f : Script σ κ} {m : σ} (huse : f.Uses L.Handle)
    (hord : L.NoReuse ∨ Turns.Singly f (L.turns m)) {P : σ → Prop} {n : ℕ}
    (hl : ((Turns.step f)^[n] (L.turns m)).line = [])
    (hb : ((Turns.step f)^[n] (L.turns m)).blocked = [])
    (h : P ((Turns.step f)^[n] (L.turns m)).mem) : L.Completes f m P := by
  obtain ⟨N₀, p, hr, hs, hN⟩ := L.returns m huse hord hl
  exact ⟨N₀, p, hr, hs.done hl hb, hs.mem ▸ h, hN⟩

theorem Completes.imp {P Q : σ → Prop} (h : L.Completes f m P) (hPQ : ∀ m, P m → Q m) :
    L.Completes f m Q := by
  obtain ⟨N₀, p, hr, hd, hp, hN⟩ := h
  exact ⟨N₀, p, hr, hd, hPQ _ hp, hN⟩

theorem diverges (L : Launch bodies) {f : Script σ κ} {m : σ} (huse : f.Uses L.Handle)
    (hord : L.NoReuse ∨ Turns.Singly f (L.turns m))
    (h : ∀ n, ((Turns.step f)^[n] (L.turns m)).line ≠ []) :
    L.Diverges f m := by
  intro N
  obtain ⟨p, hp, -, -, -, hret⟩ := L.exists_shows m huse hord N
  exact ⟨p, hp, fun hr => h _ (hret hr)⟩

/-! ### Programs whose bodies only yield -/

section YieldsOnly

variable {I : σ → List (ℕ × κ) → Prop}

/-- **Safety**: what an invariant of the turns says of the memory. -/
theorem always_of_kept (L : Launch bodies) {f : Script σ κ} {m : σ} (huse : f.Uses L.Handle)
    (hf : f.YieldsOnly) (hI : Turns.Kept f I) (hstart : I m (L.turns m).line) {P : σ → Prop}
    (hP : ∀ m line, I m line → P m) : L.Always f m P := by
  refine L.always huse (.inr (Turns.singly_of_yieldsOnly hf rfl)) ?_
  intro n
  obtain ⟨-, h⟩ := Turns.invariant (c := L.turns m) hf hI rfl hstart n
  exact hP _ _ h

/-- **Safety**, for what an invariant says of the coroutines and their places.  While main creates
them, the line is a beginning of the one at the call of `co_run`. -/
theorem exists_shows_of_kept (L : Launch bodies) {f : Script σ κ} {m : σ} (huse : f.Uses L.Handle)
    (hf : f.YieldsOnly) (hI : Turns.Kept f I) (hstart : ∀ n, I m ((L.turns m).line.take n))
    (N : ℕ) :
    ∃ p c, L.after f m N = .ok p ∧ p.Shows c ∧ c.blocked = [] ∧ I c.mem c.line := by
  by_cases hN : N ≤ bodies.length
  · obtain ⟨p, hp, h, -⟩ := L.exists_creates f m hN
    exact ⟨p, _, hp, h.toShows, rfl, hstart N⟩
  · have hall : I m (L.turns m).line := by
      have hall := hstart (L.turns m).line.length
      rwa [List.take_length] at hall
    obtain ⟨p, hp, hcalled, -, hshows, -⟩ :=
      L.exists_shows m huse (.inr (Turns.singly_of_yieldsOnly hf rfl)) N
    obtain ⟨hb, h⟩ := Turns.invariant (c := L.turns m) hf hI rfl hall (L.calls f m N)
    exact ⟨p, _, hp, hshows (hcalled.mpr (not_le.mp hN)), hb, h⟩

/-- **Liveness**: the tasks come to a point where all that are left are stuck.  If none is left,
`co_run` returns there; otherwise it does not return. -/
theorem exists_settled (L : Launch bodies) {f : Script σ κ} {m : σ} (huse : f.Uses L.Handle)
    (hf : f.YieldsOnly) (hI : Turns.Kept f I) (hstart : I m (L.turns m).line) (weight : κ → ℕ)
    (φ : σ → ℕ) {Stuck : (ℕ → Bool) → σ → κ → Prop}
    (hstuck : ∀ fin m k, Stuck fin m k → f fin k m = (m, .yield k))
    (hlt : ∀ fin m i k rest, I m ((i, k) :: rest) → ¬ Stuck fin m k →
      Turns.callWeight weight (f fin k m).2 + φ (f fin k m).1 < weight k + φ m) :
    ∃ d : Turns σ κ, d.blocked = [] ∧ I d.mem d.line ∧
      (∀ x ∈ d.line, Stuck d.finished d.mem x.2) ∧
      (d.line = [] → L.Completes f m fun m => m = d.mem) ∧ (d.line ≠ [] → L.Diverges f m) := by
  have hord : L.NoReuse ∨ Turns.Singly f (L.turns m) := .inr (Turns.singly_of_yieldsOnly hf rfl)
  obtain ⟨n, d, rfl, hb, hd, hs⟩ :=
    Turns.exists_all_stuck (c := L.turns m) hf hI weight φ hstuck hlt rfl hstart
  refine ⟨_, hb, hd, hs, fun hl => L.completes huse hord hl hb rfl, fun hl => ?_⟩
  exact L.diverges huse hord (Turns.line_ne_nil hl fun x hx => hstuck _ _ _ (hs x hx))

end YieldsOnly

end Launch

end CCoroutine
