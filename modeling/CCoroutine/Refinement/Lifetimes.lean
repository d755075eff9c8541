import CCoroutine.Refinement.Steps

/-!
# Refinement — Lifetimes

`co_create` and `co_free` as steps of the ideal scheduler.  `calloc` may return an address that
an earlier coroutine was freed from and that `S.all` still holds; the record there belongs to no
unfreed coroutine, so overwriting it changes no task.
-/

namespace CCoroutine
open CCoroutine.Ideal (Task Sys Ev)

namespace State

variable {Fn Arg : Type} {s : State Fn Arg} {co : Addr} {r : Coroutine Fn Arg}

/-! ### Ids that differ only at addresses not in use -/

namespace Inv

variable {g : Addr → ℕ}

/-- The owner of the stack being executed is unfreed. -/
theorem live_of_ctl (h : s.Inv) {c : Addr} (hc : s.ctl = .user (some c) ∨ s.ctl = .loop (some c)) :
    s.live c = true := by
  rcases hc with hc | hc
  · exact (h.running_of_ctl hc).1
  · obtain ⟨rest, hf⟩ := h.control_loop hc
    exact h.framed c (mem_frames hf)

theorem map_runQueue (h : s.Inv) (hg : ∀ b, s.live b = true → g b = s.idOf b) :
    s.runQueue.map g = s.runQueue.map s.idOf :=
  List.map_congr_left fun b hb => hg b (h.queued b hb)

theorem map_ctl (h : s.Inv) (hg : ∀ b, s.live b = true → g b = s.idOf b) :
    s.ctl.map g = s.ctl.map s.idOf := by
  cases hc : s.ctl with
  | user who =>
      cases who with
      | none => rfl
      | some c => simp [Ctl.map, hg c (h.live_of_ctl (.inl hc))]
  | loop who =>
      cases who with
      | none => rfl
      | some c => simp [Ctl.map, hg c (h.live_of_ctl (.inr hc))]

theorem map_frames (h : s.Inv) (hg : ∀ b, s.live b = true → g b = s.idOf b) :
    s.frames.map (Option.map g) = s.frames.map (Option.map s.idOf) := by
  refine List.map_congr_left fun o ho => ?_
  cases o with
  | none => rfl
  | some c => simp [hg c (h.framed c ho)]

theorem task_map (h : s.Inv) (hg : ∀ b, s.live b = true → g b = s.idOf b) {b : Addr}
    (hb : s.live b = true) : (s.mem b).task g false = (s.mem b).task s.idOf false :=
  Coroutine.task_congr _ fun t ht => hg t (h.target b t hb ht)

theorem released_map (h : s.Inv) {k : ℕ} (hr : s.released k = some r) :
    r.task g true = r.task s.idOf true :=
  Coroutine.task_congr _ fun t ht => by rw [(h.addr.released k r hr).2] at ht; cases ht

/-- A task depends on the records of unfreed coroutines only. -/
theorem taskAt_congr (h : s.Inv) {s' : State Fn Arg} {k : ℕ}
    (hrel : s'.released k = s.released k) (haddr : s'.addrOf k = s.addrOf k)
    (hmem : ∀ b, s.live b = true → s'.mem b = s.mem b) : s'.taskAt k = s.taskAt k := by
  have hg : ∀ b, s.live b = true → s'.idOf b = s.idOf b := by
    intro b hb
    rw [idOf, hmem b hb]
    rfl
  rw [taskAt, taskAt, hrel, haddr]
  cases hr : s.released k with
  | some r' => exact congrArg some (h.released_map hr)
  | none =>
      cases hk : s.addrOf k with
      | none => rfl
      | some b =>
          have hb := ((h.addr.unreleased k b hk).mp hr).1
          simp only [Option.map_some, hmem b hb, h.task_map hg hb]

end Inv

/-! ### `co_create` succeeds -/

theorem addrOf_created (q : Support.Ring Addr queueCap) (k : ℕ) :
    (s.created co r q).addrOf k = if k = s.all.length + 1 then some co else s.addrOf k := by
  unfold addrOf created
  by_cases h0 : k = 0
  · simp [h0]
  · rw [if_neg h0, if_neg h0]
    by_cases e : k = s.all.length + 1
    · subst e; simp
    · rw [if_neg e]
      by_cases hlt : k - 1 < s.all.length
      · exact List.getElem?_append_left hlt
      · rw [List.getElem?_eq_none (by simp; omega), List.getElem?_eq_none (by omega)]

theorem Addressed.created (h : s.Addressed) (hco : s.live co = false)
    (hid : r.id = s.all.length + 1) (q : Support.Ring Addr queueCap) :
    (s.created co r q).Addressed := by
  have hnew : s.addrOf (s.all.length + 1) = none := by
    by_contra hn
    exact absurd (addrOf_ne_none_iff.mp hn).2 (Nat.not_succ_le_self _)
  have hidOf : ∀ b, b ≠ co → (s.created co r q).idOf b = s.idOf b := by
    intro b hb
    simp [State.created, idOf, hb]
  have hidCo : (s.created co r q).idOf co = s.all.length + 1 := by
    simp [State.created, idOf, hid]
  refine ⟨fun b hb => ?_, fun k b hk => ?_, fun k r' hr => ?_⟩
  · rw [addrOf_created]
    by_cases e : b = co
    · subst e; rw [hidCo, if_pos rfl]
    · have hbl : s.live b = true := by simpa [State.created, e] using hb
      have hreg := h.registered b hbl
      rw [hidOf b e, if_neg, hreg]
      intro e'
      rw [e', hnew] at hreg
      cases hreg
  · rw [addrOf_created] at hk
    by_cases e : k = s.all.length + 1
    · rw [if_pos e] at hk
      obtain rfl := Option.some.inj hk
      have hrel : s.released k = none := by
        by_contra hn
        obtain ⟨r', hr'⟩ := Option.ne_none_iff_exists'.mp hn
        exact (h.released k r' hr').1 (e ▸ hnew)
      refine iff_of_true hrel ⟨by simp [State.created], ?_⟩
      rw [hidCo, e]
    · rw [if_neg e] at hk
      refine (h.unreleased k b hk).trans ?_
      by_cases eb : b = co
      · -- the old coroutine at this address had been freed
        subst eb
        refine iff_of_false (fun h' => ?_) fun h' => ?_
        · rw [hco] at h'
          cases h'.1
        · rw [hidCo] at h'
          exact e h'.2.symm
      · rw [hidOf b eb]
        simp [State.created, eb]
  · obtain ⟨hk, ha⟩ := h.released k r' hr
    refine ⟨?_, ha⟩
    rw [addrOf_created]
    split
    · simp
    · exact hk

theorem Inv.taskAt_created (h : s.Inv) (hco : s.live co = false) (ha : r.awaiting = none)
    (q : Support.Ring Addr queueCap) :
    (s.created co r q).taskAt =
      Function.update s.taskAt (s.all.length + 1) (some (r.task s.idOf false)) := by
  funext k
  by_cases e : k = s.all.length + 1
  · subst e
    have hrel : s.released (s.all.length + 1) = none := by
      by_contra hn
      obtain ⟨r', hr'⟩ := Option.ne_none_iff_exists'.mp hn
      exact absurd (addrOf_ne_none_iff.mp (h.addr.released _ r' hr').1).2 (Nat.not_succ_le_self _)
    rw [Function.update_self, taskAt, addrOf_created]
    simp only [State.created, hrel, if_true, Option.map_some, Function.update_self]
    exact congrArg some (Coroutine.task_congr _ fun t ht => by rw [ha] at ht; cases ht)
  · rw [Function.update_of_ne e]
    refine h.taskAt_congr rfl ?_ fun b hbl => ?_
    · rw [addrOf_created, if_neg e]
    · have hb : b ≠ co := fun e => by rw [e, hco] at hbl; cases hbl
      simp [State.created, hb]

/-- The record `r` is as `co_create` fills it in. -/
structure Fresh (s : State Fn Arg) (co : Addr) (r : Coroutine Fn Arg) : Prop where
  id : r.id = s.all.length + 1
  state : r.state = .ready
  fn : r.fn ≠ none
  awaiting : r.awaiting = none
  ctx : r.ctx = .trampoline co

theorem Inv.abs_created (h : s.Inv) (hco : s.live co = false) (hr : s.Fresh co r)
    {q : Support.Ring Addr queueCap} (hq : q.toList = s.runQueue ++ [co]) :
    (s.created co r q).abs = s.abs.create r.fn r.arg := by
  have hg : ∀ b, s.live b = true → (s.created co r q).idOf b = s.idOf b := by
    intro b hb
    have : b ≠ co := fun e => by rw [e, hco] at hb; cases hb
    simp [State.created, idOf, this]
  have hidCo : (s.created co r q).idOf co = s.all.length + 1 := by
    simp [State.created, idOf, hr.id]
  have hqueue : (s.created co r q).runQueue = s.runQueue ++ [co] := hq
  have hctl : (s.created co r q).ctl.map (s.created co r q).idOf = s.ctl.map s.idOf := h.map_ctl hg
  have hfr : (s.created co r q).frames.map (Option.map (s.created co r q).idOf) =
      s.frames.map (Option.map s.idOf) := h.map_frames hg
  have htask : r.task s.idOf false = ⟨.ready, none, r.fn, r.arg, false, false⟩ := by
    simp [Coroutine.task, hr.state, hr.awaiting, hr.ctx, Ctx.isTrampoline]
  simp only [State.abs, h.taskAt_created hco hr.awaiting, hqueue, List.map_append,
    h.map_runQueue hg, List.map_cons, List.map_nil, hidCo, hctl, hfr, htask, Sys.create]
  simp [State.created]

theorem Inv.created (h : s.Inv) (hco : s.live co = false) (hr : s.Fresh co r)
    (hcount : s.all.length < maxCoroutines) {q : Support.Ring Addr queueCap}
    (hq : q.toList = s.runQueue ++ [co]) {who : Option Addr} (hc : s.ctl = .user who) :
    (s.created co r q).Inv := by
  have hne : ∀ b, s.live b = true → b ≠ co := fun b hb e => by rw [e, hco] at hb; cases hb
  have hmem : ∀ b, b ≠ co → (s.created co r q).mem b = s.mem b := by
    intro b hb
    simp [State.created, hb]
  have hlive : ∀ b, b ≠ co → (s.created co r q).live b = s.live b := by
    intro b hb
    simp [State.created, hb]
  have hup : ∀ b, s.live b = true → (s.created co r q).live b = true := by
    intro b hb
    rw [hlive b (hne b hb), hb]
  have hnew : (s.created co r q).mem co = r := by simp [State.created]
  refine ⟨h.addr.created hco hr.id _, ?_, fun b hb hbl => ?_, fun b hb => ?_,
    fun b t hbl hbt => ?_, fun b hbl => ?_, fun b hbl hbs => ?_, fun b hbl hbs => ?_,
    fun c hc => hup c (h.framed c hc), ?_, ?_⟩
  · simpa [State.created] using hcount
  · have hb' : b ≠ co := fun e => by subst e; simp [State.created] at hbl
    rw [hmem b hb']
    exact h.stale b (by simpa [State.created, hb'] using hb) (hlive b hb' ▸ hbl)
  · have : b ∈ s.runQueue ++ [co] := hq ▸ hb
    rcases List.mem_append.mp this with hb | hb
    · exact hup b (h.queued b hb)
    · rw [List.mem_singleton.mp hb]; simp [State.created]
  · by_cases e : b = co
    · subst e; rw [hnew, hr.awaiting] at hbt; cases hbt
    · rw [hmem b e] at hbt
      exact hup t (h.target b t (hlive b e ▸ hbl) hbt)
  · by_cases e : b = co
    · subst e; rw [hnew]; exact hr.fn
    · rw [hmem b e]; exact h.fn b (hlive b e ▸ hbl)
  · by_cases e : b = co
    · subst e; rw [hnew, hr.ctx]; rfl
    · rw [hmem b e] at hbs ⊢; exact h.ctx b (hlive b e ▸ hbl) hbs
  · by_cases e : b = co
    · subst e; rw [hnew, hr.state] at hbs; cases hbs
    · rw [hmem b e] at hbs ⊢; exact h.inAwait b (hlive b e ▸ hbl) hbs
  · have := h.control
    unfold ControlOk at this ⊢
    simp only [State.created, hc] at this ⊢
    cases who with
    | none => exact this
    | some c => exact ⟨hup c this.1, this.2⟩
  · rw [h.abs_created hco hr hq]
    exact h.ideal.create _ _

theorem Inv.step_create (h : s.Inv) {who : Option Addr} (hc : s.ctl = .user who) (f : Fn)
    (arg : Option Arg) (n : ℕ) (stack : Addr) (hco : s.live co = false)
    (hcount : s.all.length < maxCoroutines) :
    ∃ s', s.coCreate (some f) arg n (.ok co stack) = .ok (some co, s') ∧
      Ideal.Step s.abs (.created (s.all.length + 1) (some f) arg) s'.abs ∧ s'.Inv := by
  have hq := h.size_lt
  have hr : s.Fresh co (s.newCo f arg n co stack) :=
    ⟨rfl, rfl, Option.some_ne_none f, rfl, rfl⟩
  refine ⟨_, coCreate_of_ok hcount hq, ?_, h.created hco hr hcount (by simp [runQueue]) hc⟩
  rw [h.abs_created hco hr (by simp [runQueue])]
  exact .create _ _ (abs_ctl_user hc)

/-! ### `co_create` fails -/

/-- Writing to a record that is not in use changes no task. -/
theorem Inv.abs_dead (h : s.Inv) (hco : s.live co = false) :
    State.abs { s with mem := Function.update s.mem co r } = s.abs := by
  have hmem : ∀ b, s.live b = true → Function.update s.mem co r b = s.mem b := fun b hb =>
    Function.update_of_ne (fun e => by rw [e, hco] at hb; cases hb) _ _
  have hg : ∀ b, s.live b = true → (Function.update s.mem co r b).id = s.idOf b := by
    intro b hb
    rw [hmem b hb]; rfl
  have htask : State.taskAt { s with mem := Function.update s.mem co r } = s.taskAt := by
    funext k
    exact h.taskAt_congr rfl rfl hmem
  simp only [State.abs, htask]
  congr 1
  · exact h.map_runQueue hg
  · exact h.map_ctl hg
  · exact h.map_frames hg

theorem Inv.dead (h : s.Inv) (hco : s.live co = false) (hr : r.state ≠ .waiting) :
    State.Inv { s with mem := Function.update s.mem co r } := by
  have hmem : ∀ b, s.live b = true → Function.update s.mem co r b = s.mem b := fun b hb =>
    Function.update_of_ne (fun e => by rw [e, hco] at hb; cases hb) _ _
  refine ⟨⟨fun b hb => ?_, fun k b hk => ?_, h.addr.released⟩, h.count, fun b hb hbl => ?_,
    h.queued, fun b t hbl hbt => ?_, fun b hbl => ?_, fun b hbl hbs => ?_, fun b hbl hbs => ?_,
    h.framed, h.control, by rw [h.abs_dead hco]; exact h.ideal⟩
  · simp only [idOf, hmem b hb]
    exact h.addr.registered b hb
  · refine (h.addr.unreleased k b hk).trans (and_congr_right fun hb => ?_)
    simp only [idOf, hmem b hb]
  · by_cases e : b = co
    · subst e; simpa using hr
    · simp only [Function.update_of_ne e]; exact h.stale b hb hbl
  · exact h.target b t hbl (by rwa [← hmem b hbl])
  · simp only [hmem b hbl]; exact h.fn b hbl
  · simp only [hmem b hbl] at hbs ⊢; exact h.ctx b hbl hbs
  · simp only [hmem b hbl] at hbs ⊢; exact h.inAwait b hbl hbs

/-! ### `co_free` -/

theorem taskAt_freed (s : State Fn Arg) (co : Addr) : (s.freed co).taskAt =
    Function.update s.taskAt (s.idOf co) (some ((s.mem co).task s.idOf true)) := by
  funext k
  by_cases e : k = s.idOf co
  · subst e
    rw [Function.update_self]
    simp only [taskAt, freed, idOf, Function.update_self]
    rfl
  · rw [Function.update_of_ne e]
    simp only [taskAt, freed, idOf] at e ⊢
    rw [Function.update_of_ne e]
    rfl

theorem Addressed.freed (h : s.Addressed) (hl : s.live co = true)
    (ha : (s.mem co).awaiting = none) : (s.freed co).Addressed := by
  have hlive : ∀ b, (s.freed co).live b = true ↔ s.live b = true ∧ b ≠ co := by
    intro b
    by_cases e : b = co <;> simp [State.freed, e]
  have hrel : ∀ k, k ≠ s.idOf co → (s.freed co).released k = s.released k := fun k hk =>
    Function.update_of_ne hk _ _
  have hrelCo : (s.freed co).released (s.idOf co) = some (s.mem co) := Function.update_self _ _ _
  refine ⟨fun b hb => h.registered b ((hlive b).mp hb).1, fun k b hk => ?_, fun k r hr => ?_⟩
  · by_cases e : k = s.idOf co
    · subst e
      rw [hrelCo]
      refine iff_of_false (Option.some_ne_none _) ?_
      rintro ⟨hb, hid⟩
      exact ((hlive b).mp hb).2 (h.idOf_inj ((hlive b).mp hb).1 hl hid)
    · rw [hrel k e, h.unreleased k b hk, hlive b]
      refine and_congr_left fun hid => ?_
      exact (and_iff_left fun eb => e (hid.symm.trans (congrArg s.idOf eb))).symm
  · by_cases e : k = s.idOf co
    · subst e
      rw [hrelCo] at hr
      cases hr
      refine ⟨?_, ha⟩
      show s.addrOf (s.idOf co) ≠ none
      rw [h.registered co hl]
      exact Option.some_ne_none _
    · rw [hrel k e] at hr
      exact h.released k r hr

theorem Inv.step_free (h : s.Inv) {who : Option Addr} (hc : s.ctl = .user who)
    (hl : s.live co = true) (hd : (s.mem co).state = .done) :
    ∃ s', s.coFree (some co) = .ok s' ∧ Ideal.Step s.abs (.freed (s.idOf co)) s'.abs ∧
      s'.Inv := by
  refine ⟨_, coFree_of_done hd, ?_⟩
  have hstep : Ideal.Step s.abs (.freed (s.idOf co)) (s.freed co).abs := by
    convert Ideal.Step.free (abs_ctl_user hc) (h.task_live hl) hd rfl using 1
    simp only [State.abs, taskAt_freed]
    rfl
  have hup : ∀ b, s.live b = true → b ≠ co → (s.freed co).live b = true := by
    intro b hb e
    simp [State.freed, e, hb]
  have hdown : ∀ b, (s.freed co).live b = true → s.live b = true := by
    intro b hb
    by_cases e : b = co
    · rw [e, hl]
    · simpa [State.freed, e] using hb
  -- what is ready, running or awaited is not `co`, which is done
  have hne : ∀ b, (s.mem b).state ≠ .done → b ≠ co := fun b hb e => hb (e ▸ hd)
  refine ⟨hstep, h.addr.freed hl (h.awaiting_none hl (by simp [hd])), h.count,
    fun b hb hbl => ?_, fun b hb => ?_, fun b t hbl hbt => ?_, fun b hbl => h.fn b (hdown b hbl),
    fun b hbl => h.ctx b (hdown b hbl), fun b hbl => h.inAwait b (hdown b hbl),
    fun c hcf => ?_, ?_, h.ideal.step hstep⟩
  · by_cases e : b = co
    · rw [show (s.freed co).mem b = s.mem co from congrArg s.mem e, hd]
      decide
    · exact h.stale b hb (by simpa [State.freed, e] using hbl)
  · obtain ⟨hbl, hbr⟩ := h.mem_runQueue.mp hb
    exact hup b hbl (hne b (by simp [hbr]))
  · have htl := h.target b t (hdown b hbl) hbt
    exact hup t htl (hne t (h.target_not_done (hdown b hbl) hbt))
  · exact hup c (h.framed c hcf) (hne c (by simp [h.running_of_framed hcf]))
  · have := h.control
    unfold ControlOk at this ⊢
    simp only [State.freed, hc] at this ⊢
    cases who with
    | none => exact this
    | some c => exact ⟨hup c this.1 (hne c (by simp [(h.running_of_ctl hc).2])), this.2⟩

/-! ### `co_run` is called, and returns -/

theorem abs_ctl_frames (s : State Fn Arg) (s' : State Fn Arg) (hall : s'.all = s.all)
    (hq : s'.q = s.q) (hmem : s'.mem = s.mem) (hrel : s'.released = s.released) :
    s'.abs = { s.abs with
      ctl := s'.ctl.map s.idOf, frames := s'.frames.map (Option.map s.idOf) } := by
  have hid : s'.idOf = s.idOf := by funext b; simp only [idOf, hmem]
  have htask : s'.taskAt = s.taskAt := by
    funext k
    rw [taskAt_of_idOf hid hall hrel, hmem]
    rfl
  simp only [State.abs, htask, hid, hall, runQueue, hq]

theorem Inv.step_run (h : s.Inv) {who : Option Addr} (hc : s.ctl = .user who) :
    Ideal.Step s.abs (.runCalled (who.map s.idOf)) (s.coRun who).abs ∧ (s.coRun who).Inv := by
  have hstep : Ideal.Step s.abs (.runCalled (who.map s.idOf)) (s.coRun who).abs :=
    abs_ctl_frames s (s.coRun who) rfl rfl rfl rfl ▸ .run (abs_ctl_user hc)
  refine ⟨hstep, h.addr.congr rfl rfl rfl rfl, h.count, h.stale, h.queued, h.target, h.fn, h.ctx,
    h.inAwait, fun c hcf => ?_, ?_, h.ideal.step hstep⟩
  · rcases List.mem_cons.mp hcf with e | hcf
    · exact h.live_of_ctl (.inl (e ▸ hc))
    · exact h.framed c hcf
  · cases who with
    | none => exact ⟨h.running_main hc, _, rfl⟩
    | some c => exact ⟨_, rfl, h.control_body hc⟩

theorem Inv.step_return (h : s.Inv) {who : Option Addr} (hc : s.ctl = .loop who)
    (hq : s.runQueue = []) :
    ∃ s', s.runLoop who = .ok s' ∧
      Ideal.Step s.abs (.runReturned (who.map s.idOf)) s'.abs ∧ s'.Inv := by
  obtain ⟨rest, hf⟩ := h.control_loop hc
  have herase : s.frames.erase who = rest := by rw [hf, List.erase_cons_head]
  refine ⟨_, runLoop_nil hq, ?_⟩
  rw [herase]
  have hstep : Ideal.Step s.abs (.runReturned (who.map s.idOf))
      (State.abs { s with ctl := .user who, frames := rest }) :=
    abs_ctl_frames s { s with ctl := .user who, frames := rest } rfl rfl rfl rfl ▸
      .runReturn (abs_ctl_loop hc) (by simp [State.abs, hq]) (abs_frames hf)
  refine ⟨hstep, h.addr.congr rfl rfl rfl rfl, h.count, h.stale, h.queued, h.target, h.fn, h.ctx,
    h.inAwait, fun c hcf => h.framed c (by rw [hf]; exact List.mem_cons_of_mem _ hcf), ?_,
    h.ideal.step hstep⟩
  cases who with
  | none =>
      have := h.control
      rw [ControlOk, hc] at this
      exact this.1
  | some c => exact ⟨h.live_of_ctl (.inr hc), h.control_nested hc hf⟩

end State

end CCoroutine
