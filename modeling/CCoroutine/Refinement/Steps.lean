import CCoroutine.Refinement.Invariant

/-!
# Refinement — Steps

Each call of the API, and each turn of the scheduler loop, is a step of the ideal scheduler and
keeps the invariant.  `event` names the ideal step.

A `co_run` that a body called and that has resumed a coroutine leaves `S.running` at `NULL` when
it returns (`StrandingReturn`).  The calls that suspend their caller rely on it.
-/

namespace CCoroutine
open CCoroutine.Ideal (Task Sys Ev)

namespace State

variable {Fn Arg : Type}

/-- The id of the body being executed. -/
def self (s : State Fn Arg) : ℕ :=
  match s.ctl with
  | .user (some c) => s.idOf c
  | _ => 0

/-- What a step does, in terms of ids. -/
def event (s : State Fn Arg) : Act Fn Arg → Ev Fn Arg
  | .create fn arg _ m => match m with
    | .ok _ _ => .created (s.all.length + 1) fn arg
    | _ => .createFailed
  | .free co => .freed ((co.map s.idOf).getD 0)
  | .yield => .yielded s.self
  | .await other =>
      let k := (other.map s.idOf).getD 0
      if (other.map fun a => (s.mem a).state) = some .done then .awaited s.self k
      else .blocked s.self k
  | .run => .runCalled (match s.ctl with | .user who | .loop who => who.map s.idOf)
  | .state co => .sawState ((co.map s.idOf).getD 0) ((co.map fun a => (s.mem a).state).getD .ready)
  | .id => .sawId s.coId
  | .ret => .finished s.self (match s.ctl with
    | .user (some c) => (s.waiters c).map s.idOf
    | _ => [])
  | .sched => match s.runQueue with
    | [] => .runReturned (match s.ctl with | .user who | .loop who => who.map s.idOf)
    | co :: _ =>
        let t := (s.mem co).task s.idOf false
        .resumed (s.idOf co) (if t.started then none else some (t.fn, t.arg))

/-- The step `a` is one that can have the event. -/
def Causes (a : Act Fn Arg) : Ev Fn Arg → Prop
  | .created _ _ _ | .createFailed => ∃ fn arg n m, a = .create fn arg n m
  | .freed _ => ∃ co, a = .free co
  | .yielded _ => a = .yield
  | .awaited _ _ | .blocked _ _ => ∃ other, a = .await other
  | .finished _ _ => a = .ret
  | .runCalled _ => a = .run
  | .runReturned _ | .resumed _ _ => a = .sched
  | .sawState _ _ => ∃ co, a = .state co
  | .sawId _ => a = .id

/-- **The event names the call.** -/
theorem causes_of_event {s : State Fn Arg} {a : Act Fn Arg} {e : Ev Fn Arg} (he : s.event a = e) :
    Causes a e := by
  subst he
  cases a with
  | create fn arg n m => cases m <;> exact ⟨_, _, _, _, rfl⟩
  | await other => simp only [event]; split <;> exact ⟨_, rfl⟩
  | sched => simp only [event]; split <;> rfl
  | free | state => exact ⟨_, rfl⟩
  | yield | run | id | ret => rfl

/-- The turn of the loop in which a `co_run` called by a body returns, after it has resumed a
coroutine. -/
def StrandingReturn (s : State Fn Arg) : Prop :=
  s.runQueue = [] ∧ s.running = none ∧ ∃ c, s.ctl = .loop (some c)

theorem self_eq {s : State Fn Arg} {c : Addr} (hc : s.ctl = .user (some c)) :
    s.self = s.idOf c := by
  simp [self, hc]

theorem abs_ctl_user {s : State Fn Arg} {who : Option Addr} (hc : s.ctl = .user who) :
    s.abs.ctl = .user (who.map s.idOf) := by
  simp [abs, hc, Ctl.map]

theorem abs_ctl_loop {s : State Fn Arg} {who : Option Addr} (hc : s.ctl = .loop who) :
    s.abs.ctl = .loop (who.map s.idOf) := by
  simp [abs, hc, Ctl.map]

theorem abs_ctl_main_iff {s : State Fn Arg} : s.abs.ctl = .user none ↔ s.ctl = .user none := by
  cases hc : s.ctl with
  | user who => simp [abs_ctl_user hc]
  | loop who => simp [abs_ctl_loop hc]

theorem abs_frames {s : State Fn Arg} {o : Option Addr} {rest : List (Option Addr)}
    (hf : s.frames = o :: rest) :
    s.abs.frames = o.map s.idOf :: rest.map (Option.map s.idOf) := by
  simp [abs, hf]

/-- The ideal system after one unfreed coroutine has changed. -/
theorem abs_update {s : State Fn Arg} (s' : State Fn Arg) (h : s.Addressed) (hall : s'.all = s.all)
    (hrel : s'.released = s.released) {a : Addr} {r : Coroutine Fn Arg}
    (hmem : s'.mem = Function.update s.mem a r) (ha : s.live a = true) (hr : r.id = s.idOf a) :
    s'.abs = { s.abs.set (s.idOf a) (r.task s.idOf false) with
      queue := s'.runQueue.map s.idOf
      ctl := s'.ctl.map s.idOf
      frames := s'.frames.map (Option.map s.idOf) } := by
  have hid := idOf_update hmem hr
  simp only [abs, Sys.set, hid, hall, h.taskAt_update hall hrel hmem ha hr]

namespace Inv

variable {s s' : State Fn Arg} {a c : Addr} {r : Coroutine Fn Arg}

/-- One unfreed coroutine changes: the part of the invariant about addresses and contexts. -/
theorem of_update (h : s.Inv) (hall : s'.all = s.all) (hlive : s'.live = s.live)
    (hrel : s'.released = s.released) (hmem : s'.mem = Function.update s.mem a r)
    (ha : s.live a = true) (hid : r.id = s.idOf a) (hfn : r.fn = (s.mem a).fn)
    (hq : ∀ b ∈ s'.runQueue, s.live b = true) (ht : ∀ t, r.awaiting = some t → s.live t = true)
    (hctx : r.state = .ready → r.ctx.body = some a)
    (hawait : r.state = .waiting → ∃ other, r.ctx = .inAwait (some a) other)
    (hfr : ∀ c, some c ∈ s'.frames → s.live c = true) (hcontrol : s'.ControlOk)
    (hideal : Ideal.Inv s'.abs) : s'.Inv where
  addr := h.addr.congr hall hlive hrel (idOf_update hmem hid)
  count := by rw [hall]; exact h.count
  stale b hb hl := by
    rw [hlive] at hl
    have hba : b ≠ a := fun e => by rw [e, ha] at hl; cases hl
    rw [hmem, Function.update_of_ne hba]
    exact h.stale b (hall ▸ hb) hl
  queued b hb := by rw [hlive]; exact hq b hb
  target b t hb hbt := by
    rw [hlive] at hb ⊢
    by_cases e : b = a
    · subst e; rw [hmem, Function.update_self] at hbt; exact ht t hbt
    · rw [hmem, Function.update_of_ne e] at hbt; exact h.target b t hb hbt
  fn b hb := by
    rw [hlive] at hb
    by_cases e : b = a
    · subst e; rw [hmem, Function.update_self, hfn]; exact h.fn b hb
    · rw [hmem, Function.update_of_ne e]; exact h.fn b hb
  ctx b hb hbs := by
    rw [hlive] at hb
    by_cases e : b = a
    · subst e; rw [hmem, Function.update_self] at hbs ⊢; exact hctx hbs
    · rw [hmem, Function.update_of_ne e] at hbs ⊢; exact h.ctx b hb hbs
  inAwait b hb hbs := by
    rw [hlive] at hb
    by_cases e : b = a
    · subst e; rw [hmem, Function.update_self] at hbs ⊢; exact hawait hbs
    · rw [hmem, Function.update_of_ne e] at hbs ⊢; exact h.inAwait b hb hbs
  framed c hc := by rw [hlive]; exact hfr c hc
  control := hcontrol
  ideal := hideal

/-- The ideal system after `c` has left its body. -/
theorem abs_suspended (h : s.Inv) (hl : s.live c = true) (r : Coroutine Fn Arg)
    (q : Support.Ring Addr queueCap) (o : Option Addr) (hid : r.id = s.idOf c) :
    (s.suspended c r q o).abs = { s.abs.set (s.idOf c) (r.task s.idOf false) with
      queue := q.toList.map s.idOf, ctl := .loop (o.map s.idOf) } :=
  abs_update (s.suspended c r q o) h.addr rfl rfl rfl hl hid

theorem step_yield (h : s.Inv) (ha : s.Attached) (hc : s.ctl = .user (some c)) :
    ∃ s', s.coYield (some c) = .ok s' ∧ Ideal.Step s.abs (.yielded (s.idOf c)) s'.abs ∧
      s'.Inv := by
  obtain ⟨hl, hst⟩ := h.running_of_ctl hc
  obtain ⟨hr, o, rest, hf, hm⟩ := h.holds ha hc
  have hq := h.size_lt
  refine ⟨_, coYield_eq hr hm (mem_frames hf) hq, ?_⟩
  have hstep : Ideal.Step s.abs (.yielded (s.idOf c)) (s.suspended c
      { s.mem c with state := .ready, ctx := .inYield (some c) } (s.q.push c hq) o).abs := by
    rw [h.abs_suspended hl _ _ _ (by rfl)]
    convert Ideal.Step.yield (abs_ctl_user hc) (h.task_live hl) (abs_frames hf) using 1
    simp [abs, Sys.set, runQueue, Coroutine.task, hst, Ctx.isTrampoline]
  refine ⟨hstep, h.of_update rfl rfl rfl rfl hl rfl rfl (fun b hb => ?_)
    (fun t ht => h.target c t hl ht) (fun _ => rfl) (fun hs => by cases hs) h.framed
    (.of_loop rfl hf rfl hm) (h.ideal.step hstep)⟩
  simp only [runQueue, suspended, Support.Ring.toList_push, List.mem_append,
    List.mem_singleton] at hb
  rcases hb with hb | rfl
  · exact h.queued b hb
  · exact hl

theorem step_block (h : s.Inv) (hat : s.Attached) (hc : s.ctl = .user (some c))
    (ha : s.live a = true) (hd : (s.mem a).state ≠ .done) :
    ∃ s', s.coAwait (some c) (some a) = .ok s' ∧
      Ideal.Step s.abs (.blocked (s.idOf c) (s.idOf a)) s'.abs ∧ s'.Inv := by
  obtain ⟨hl, hst⟩ := h.running_of_ctl hc
  obtain ⟨hr, o, rest, hf, hm⟩ := h.holds hat hc
  refine ⟨_, coAwait_eq hd hr hm (mem_frames hf), ?_⟩
  have hstep : Ideal.Step s.abs (.blocked (s.idOf c) (s.idOf a)) (s.suspended c
      { s.mem c with state := .waiting, awaiting := some a, ctx := .inAwait (some c) a }
      s.q o).abs := by
    rw [h.abs_suspended hl _ _ _ (by rfl)]
    convert Ideal.Step.block (abs_ctl_user hc) (h.task_live hl) (h.task_live ha) hd
      (abs_frames hf) using 1
    simp [abs, Sys.set, runQueue, Coroutine.task, hst]
  refine ⟨hstep, h.of_update rfl rfl rfl rfl hl rfl rfl h.queued (fun t ht => ?_)
    (fun hs => by cases hs) (fun _ => ⟨a, rfl⟩) h.framed (.of_loop rfl hf rfl hm)
    (h.ideal.step hstep)⟩
  obtain rfl : a = t := Option.some.inj ht
  exact ha

theorem step_resume (h : s.Inv) {who : Option Addr} {rest : List Addr}
    (hc : s.ctl = .loop who) (hq : s.runQueue = a :: rest) :
    ∃ s', s.runLoop who = .ok s' ∧ Ideal.Step s.abs (s.event .sched) s'.abs ∧ s'.Inv := by
  obtain ⟨hl, hst⟩ := h.mem_runQueue.mp (hq ▸ List.mem_cons_self : a ∈ s.runQueue)
  obtain ⟨frest, hf⟩ := h.control_loop hc
  obtain ⟨q', he, hq'⟩ := runLoop_cons who hq hst (h.ctx a hl hst) (h.fn a hl)
  refine ⟨_, he, ?_⟩
  have hstep : Ideal.Step s.abs (s.event .sched) (s.resumed who a q').abs := by
    rw [abs_update (s.resumed who a q') h.addr rfl rfl rfl hl (by rfl)]
    have hev : s.event .sched = .resumed (s.idOf a) (if ((s.mem a).task s.idOf false).started
        then none else some (((s.mem a).task s.idOf false).fn,
          ((s.mem a).task s.idOf false).arg)) := by
      simp only [event, hq]
    rw [hev]
    convert Ideal.Step.resume (A := s.abs) (q := rest.map s.idOf) (abs_ctl_loop hc)
      (by simp [abs, hq]) (h.task_live hl) using 1
    simp [abs, Sys.set, runQueue, resumed, Coroutine.task, Ctl.map, hq']
  refine ⟨hstep, h.of_update rfl rfl rfl rfl hl rfl rfl (fun b hb => ?_)
    (fun t ht => h.target a t hl ht) (fun hs => by cases hs) (fun hs => by cases hs) h.framed
    ⟨hl, .inl ⟨rfl, who, frest, hf, rfl⟩⟩ (h.ideal.step hstep)⟩
  have : b ∈ rest := by rwa [← hq']
  exact h.queued b (hq ▸ List.mem_cons_of_mem _ this)

/-! ### A body returns -/

theorem idOf_finishMem (s : State Fn Arg) (c b : Addr) : (s.finishMem c b).id = s.idOf b := by
  unfold finishMem
  split
  · next e => subst e; rfl
  · unfold wokenMem
    split <;> rfl

/-- The ids of the waiters of `c` are the tasks that wait on `c`. -/
theorem mem_waiters_ids (h : s.Inv) (hl : s.live c = true) (w : ℕ) :
    w ∈ (s.waiters c).map s.idOf ↔ s.abs.WaitsOn w (s.idOf c) := by
  constructor
  · intro hw
    obtain ⟨b, hb, rfl⟩ := List.mem_map.mp hw
    obtain ⟨-, hs, ha⟩ := mem_waiters.mp hb
    exact ⟨_, h.task_live (h.live_of_mem_waiters hb), hs, by simp [Coroutine.task, ha]⟩
  · rintro ⟨t, ht, hs, ha⟩
    rcases h.addr.taskAt_cases ht with ⟨r, hr, rfl⟩ | ⟨b, hb, rfl, rfl⟩
    · simp [Coroutine.task, (h.addr.released _ r hr).2] at ha
    · obtain ⟨x, hx, hxc⟩ := Option.map_eq_some_iff.mp ha
      obtain rfl := h.addr.idOf_inj (h.target b x hb hx) hl hxc
      exact List.mem_map_of_mem (mem_waiters.mpr ⟨h.addr.mem_all hb, hs, hx⟩)

theorem nodup_waiters_ids (h : s.Inv) (c : Addr) : ((s.waiters c).map s.idOf).Nodup :=
  List.Nodup.map_on (fun _ ha _ hb e =>
    h.addr.idOf_inj (h.live_of_mem_waiters ha) (h.live_of_mem_waiters hb) e) (s.nodup_waiters c)

theorem taskAt_finished (h : s.Inv) (hl : s.live c = true) (hst : (s.mem c).state = .running)
    (q : Support.Ring Addr queueCap) (o : Option Addr) :
    (s.finished c q o).taskAt = s.abs.finishTask (s.idOf c) ((s.mem c).task s.idOf false)
      ((s.waiters c).map s.idOf) := by
  have hid : (s.finished c q o).idOf = s.idOf := funext (idOf_finishMem s c)
  funext k
  rw [taskAt_of_idOf hid rfl rfl, Sys.finishTask]
  by_cases e : k = s.idOf c
  · subst e
    rw [if_pos rfl, h.addr.released_none hl, h.addr.registered c hl]
    simp [finished, finishMem, Coroutine.task, hst]
  · rw [if_neg e]
    by_cases hw : k ∈ (s.waiters c).map s.idOf
    · rw [if_pos hw]
      obtain ⟨b, hb, rfl⟩ := List.mem_map.mp hw
      have hbl := h.live_of_mem_waiters hb
      obtain ⟨-, hs, -⟩ := mem_waiters.mp hb
      obtain ⟨x, hx⟩ := h.inAwait b hbl hs
      rw [h.addr.released_none hbl, h.addr.registered b hbl, h.task_live hbl]
      have hbc : b ≠ c := fun eb => e (eb ▸ rfl)
      simp [finished, finishMem, hbc, wokenMem, hb, Coroutine.woken, Coroutine.task, Task.woken,
        hs, hx, Ctx.isTrampoline]
    · rw [if_neg hw]
      show _ = s.taskAt k
      rw [taskAt]
      cases hr : s.released k with
      | some r => rfl
      | none =>
          cases hk : s.addrOf k with
          | none => rfl
          | some b =>
              obtain ⟨hbl, rfl⟩ := (h.addr.unreleased k b hk).mp hr
              have hbc : b ≠ c := fun eb => e (eb ▸ rfl)
              have hbw : b ∉ s.waiters c := fun hb => hw (List.mem_map_of_mem hb)
              simp [finished, finishMem, hbc, wokenMem, hbw]

theorem step_ret (h : s.Inv) (ha : s.Attached) (hc : s.ctl = .user (some c)) :
    ∃ s', s.coEntryRet c = .ok s' ∧
      Ideal.Step s.abs (.finished (s.idOf c) ((s.waiters c).map s.idOf)) s'.abs ∧ s'.Inv := by
  obtain ⟨hl, hst⟩ := h.running_of_ctl hc
  obtain ⟨hr, o, rest, hf, hm⟩ := h.holds ha hc
  obtain ⟨q', he, hq'⟩ := coEntryRet_eq (by simp [hst]) hm (mem_frames hf)
    ((h.room c).trans h.lt_queueCap.le)
  refine ⟨_, he, ?_⟩
  have hid : (s.finished c q' o).idOf = s.idOf := funext (idOf_finishMem s c)
  have hstep : Ideal.Step s.abs (.finished (s.idOf c) ((s.waiters c).map s.idOf))
      (s.finished c q' o).abs := by
    convert Ideal.Step.finish (abs_ctl_user hc) (h.task_live hl) (abs_frames hf)
      (h.nodup_waiters_ids c) (h.mem_waiters_ids hl) using 1
    simp only [abs, hid, h.taskAt_finished hl hst]
    simp [finished, runQueue, hq', Ctl.map]
  have hmem : ∀ b, b ≠ c → b ∉ s.waiters c → (s.finished c q' o).mem b = s.mem b :=
    fun b hb hw => by simp [finished, finishMem, wokenMem, hb, hw]
  refine ⟨hstep, h.addr.congr rfl rfl rfl hid, h.count, fun b hb hbl => ?_, fun b hb => ?_,
    fun b t hbl hbt => ?_, fun b hbl => ?_, fun b hbl hbs => ?_, fun b hbl hbs => ?_, h.framed,
    .of_loop rfl hf rfl hm, h.ideal.step hstep⟩
  · have hbl' : s.live b = false := hbl
    rw [hmem b (fun e => by rw [e, hl] at hbl'; cases hbl')
      (fun hw => by rw [h.live_of_mem_waiters hw] at hbl'; cases hbl')]
    exact h.stale b hb hbl'
  · rw [show (s.finished c q' o).runQueue = s.runQueue ++ s.waiters c from hq'] at hb
    rcases List.mem_append.mp hb with hb | hb
    · exact h.queued b hb
    · exact h.live_of_mem_waiters hb
  · by_cases e : b = c
    · subst e
      simp [finished, finishMem, h.awaiting_none hl (by simp [hst])] at hbt
    · by_cases hw : b ∈ s.waiters c
      · simp [finished, finishMem, e, wokenMem, hw, Coroutine.woken] at hbt
      · rw [hmem b e hw] at hbt
        exact h.target b t hbl hbt
  · have : ((s.finished c q' o).mem b).fn = (s.mem b).fn := by
      by_cases e : b = c
      · subst e; simp [finished, finishMem]
      · by_cases hw : b ∈ s.waiters c <;>
          simp [finished, finishMem, e, wokenMem, hw, Coroutine.woken]
    rw [this]
    exact h.fn b hbl
  · by_cases e : b = c
    · subst e; simp [finished, finishMem] at hbs
    · by_cases hw : b ∈ s.waiters c
      · obtain ⟨x, hx⟩ := h.inAwait b hbl (mem_waiters.mp hw).2.1
        simp [finished, finishMem, e, wokenMem, hw, Coroutine.woken, hx, Ctx.body]
      · rw [hmem b e hw] at hbs ⊢
        exact h.ctx b hbl hbs
  · by_cases e : b = c
    · subst e; simp [finished, finishMem] at hbs
    · by_cases hw : b ∈ s.waiters c
      · simp [finished, finishMem, e, wokenMem, hw, Coroutine.woken] at hbs
      · rw [hmem b e hw] at hbs ⊢
        exact h.inAwait b hbl hbs

end Inv

end State

end CCoroutine
