import CCoroutine.Refinement.Control
import CCoroutine.Safety.Table

/-!
# Safety — Agreement

Nothing depends on memory that is not allocated.  Two states that differ at most there (`Agree`)
take the same steps (`Agree.step`), with the same events (`Agree.event_eq`), to states that agree
again, although `wakeup_waiters` reads slots of `S.all` whose records have been released: the
invariant keeps those from passing its test.
-/

namespace CCoroutine
namespace State

variable {Fn Arg : Type} {s s' s₂ : State Fn Arg} {a : Act Fn Arg} {c : Addr}

/-! ### States that agree -/

/-- The states differ at most in the contents of memory that is not allocated. -/
def Agree (s s₂ : State Fn Arg) : Prop :=
  ∃ m, s₂ = { s with mem := m } ∧ ∀ a, s.live a = true → m a = s.mem a

theorem Agree.refl (s : State Fn Arg) : s.Agree s := ⟨s.mem, rfl, fun _ _ => rfl⟩

/-- What succeeds on the left succeeds on the right, and the states agree. -/
def Sim (x y : Except Fault (State Fn Arg)) : Prop :=
  ∀ s', x = .ok s' → ∃ s₂', y = .ok s₂' ∧ s'.Agree s₂'

theorem Sim.ok (h : s.Agree s₂) : Sim (.ok s) (.ok s₂) := by
  intro s' hs
  cases hs
  exact ⟨s₂, rfl, h⟩

theorem Sim.error (e : Fault) (y : Except Fault (State Fn Arg)) : Sim (.error e) y :=
  fun _ hs => by cases hs

theorem Sim.bind {x y : Except Fault (State Fn Arg)}
    {f g : State Fn Arg → Except Fault (State Fn Arg)} (h : Sim x y)
    (hf : ∀ s' s₂', x = .ok s' → y = .ok s₂' → s'.Agree s₂' → Sim (f s') (g s₂')) :
    Sim (x >>= f) (y >>= g) := by
  intro s'' hs
  obtain ⟨s', hx, hs⟩ := exists_of_bind_eq_ok hs
  obtain ⟨s₂', hy, ha⟩ := h s' hx
  rw [hy]
  exact hf s' s₂' hx hy ha s'' hs

/-- `wakeup_waiters` skips the slots of `l` that are not allocated. -/
def SkipsDead (s : State Fn Arg) (l : List Addr) : Prop :=
  ∀ b ∈ l, s.live b = false → (s.mem b).state ≠ .waiting

theorem SkipsDead.modCo {l : List Addr} (h : s.SkipsDead l) (hc : s.live c = true)
    (f : Coroutine Fn Arg → Coroutine Fn Arg) : (s.modCo c f).SkipsDead l := by
  intro b hb hd
  have hne : b ≠ c := fun e => by rw [e, State.modCo, hc] at hd; cases hd
  simp only [State.modCo, Function.update_of_ne hne]
  exact h b hb hd

theorem SkipsDead.qPush {l : List Addr} (h : s.SkipsDead l) (hp : s.qPush c = .ok s') :
    s'.SkipsDead l := by
  obtain ⟨hq, rfl⟩ := qPush_inv hp
  exact h

namespace Agree

theorem live_eq (h : s.Agree s₂) : s₂.live = s.live := by
  obtain ⟨m, rfl, -⟩ := h
  rfl

theorem mem_eq (h : s.Agree s₂) (hc : s.live c = true) : s₂.mem c = s.mem c := by
  obtain ⟨m, rfl, hm⟩ := h
  exact hm c hc

/-- An allocated record changes in the same way. -/
theorem modCo (h : s.Agree s₂) (hc : s.live c = true)
    (f : Coroutine Fn Arg → Coroutine Fn Arg) : (s.modCo c f).Agree (s₂.modCo c f) := by
  obtain ⟨m, rfl, hm⟩ := h
  refine ⟨Function.update m c (f (m c)), rfl, fun b hb => ?_⟩
  by_cases e : b = c
  · subst e
    simp only [State.modCo, Function.update_self, hm b hc]
  · simp only [State.modCo, Function.update_of_ne e]
    exact hm b hb

theorem qPush (h : s.Agree s₂) (c : Addr) : Sim (s.qPush c) (s₂.qPush c) := by
  obtain ⟨m, rfl, hm⟩ := h
  by_cases hq : s.q.size < queueCap
  · rw [qPush_of_lt s c hq, qPush_of_lt { s with mem := m } c hq]
    exact .ok ⟨m, rfl, hm⟩
  · rw [State.qPush, dif_neg hq]
    exact .error _ _

/-- The test of `wakeup_waiters` has the same result on both sides. -/
theorem test_iff (h : s.Agree s₂) (done : Addr) {b : Addr} {l : List Addr}
    (hl : s.SkipsDead (b :: l)) (hl₂ : s₂.SkipsDead (b :: l)) :
    ((s₂.mem b).state = .waiting ∧ (s₂.mem b).awaiting = some done) ↔
      ((s.mem b).state = .waiting ∧ (s.mem b).awaiting = some done) := by
  cases hb : s.live b with
  | true => rw [h.mem_eq hb]
  | false =>
      refine iff_of_false (fun hw => ?_) fun hw => hl b List.mem_cons_self hb hw.1
      exact hl₂ b List.mem_cons_self (by rw [h.live_eq, hb]) hw.1

theorem wakeupLoop (h : s.Agree s₂) (done : Addr) {l : List Addr} (hl : s.SkipsDead l)
    (hl₂ : s₂.SkipsDead l) : Sim (wakeupLoop done l s) (wakeupLoop done l s₂) := by
  induction l generalizing s s₂ with
  | nil => exact .ok h
  | cons b l ih =>
      have htest := h.test_iff done hl hl₂
      have htail : ∀ {s : State Fn Arg}, s.SkipsDead (b :: l) → s.SkipsDead l :=
        fun hs d hd => hs d (List.mem_cons_of_mem _ hd)
      simp only [State.wakeupLoop]
      split
      · next hw =>
          rw [if_pos (htest.mpr hw)]
          have hb : s.live b = true := by
            by_contra hn
            exact hl b List.mem_cons_self (by simpa using hn) hw.1
          have hb₂ : s₂.live b = true := by rw [h.live_eq, hb]
          exact ((h.modCo hb _).qPush b).bind fun s' s₂' hp hp₂ ha =>
            ih ha (((htail hl).modCo hb _).qPush hp) (((htail hl₂).modCo hb₂ _).qPush hp₂)
      · next hw =>
          rw [if_neg (htest.not.mpr hw)]
          exact ih h (htail hl) (htail hl₂)

/-- A switch into a loop of `co_run`, or back into a body. -/
theorem switchTo (h : s.Agree s₂) (ctx : Ctx)
    (hctx : ∀ co, ctx = .trampoline co → s.live co = true) :
    Sim (s.switchTo ctx) (s₂.switchTo ctx) := by
  obtain ⟨m, rfl, hm⟩ := h
  cases ctx with
  | zero | inEntry => exact .error _ _
  | inYield | inAwait => exact .ok ⟨m, rfl, hm⟩
  | inResume who =>
      simp only [State.switchTo]
      split
      · exact .ok ⟨m, rfl, hm⟩
      · exact .error _ _
  | trampoline co =>
      simp only [State.switchTo, coEntry, hm co (hctx co rfl)]
      cases (s.mem co).fn with
      | none => exact .error _ _
      | some f => exact .ok ⟨m, rfl, hm⟩

/-! ### One step -/

theorem legal (h : s.Agree s₂) (hl : s.Legal a) : s₂.Legal a := by
  obtain ⟨m, rfl, hm⟩ := h
  cases a with
  | free co =>
      obtain ⟨hc, b, rfl, hb, hd⟩ := hl
      exact ⟨hc, b, rfl, hb, by simpa only [hm b hb] using hd⟩
  | create | yield | await | run | state | id | ret | sched => exact hl

/-- The same record is written on both sides, whether it is allocated before or not. -/
theorem update {m : Addr → Coroutine Fn Arg} (hm : ∀ b, s.live b = true → m b = s.mem b)
    (r : Coroutine Fn Arg) {b : Addr} (hb : b = c ∨ s.live b = true) :
    Function.update m c r b = Function.update s.mem c r b := by
  by_cases e : b = c
  · subst e; simp only [Function.update_self]
  · simp only [Function.update_of_ne e]
    exact hm b (hb.resolve_left e)

theorem create (h : s.Agree s₂) (who : Option Addr) (f : Fn) (arg : Option Arg) (n : ℕ) (al : Alloc)
    (hcount : s.all.length < maxCoroutines) (hq : s.q.size < queueCap) :
    Sim (s.call who (.create (some f) arg n al)) (s₂.call who (.create (some f) arg n al)) := by
  obtain ⟨m, rfl, hm⟩ := h
  cases al with
  | callocFails =>
      rw [call_create, call_create, coCreate_of_callocFails hcount,
        coCreate_of_callocFails (s := { s with mem := m }) hcount]
      exact Sim.ok ⟨m, rfl, hm⟩
  | mallocFails co =>
      rw [call_create, call_create, coCreate_of_mallocFails hcount,
        coCreate_of_mallocFails (s := { s with mem := m }) hcount]
      exact Sim.ok ⟨_, rfl, fun b hb => update hm _ (.inr hb)⟩
  | ok co stack =>
      rw [call_create, call_create, coCreate_of_ok hcount hq,
        coCreate_of_ok (s := { s with mem := m }) hcount hq]
      refine Sim.ok ⟨_, rfl, fun b hb => update hm _ ?_⟩
      by_cases e : b = co
      · exact .inl e
      · exact .inr (by simpa [created, e] using hb)

theorem coEntryRet (h : s.Agree s₂) (hi : s.Inv) (hi₂ : s₂.Inv) {o : Option Addr}
    (hc : s.live c = true) (hst : (s.mem c).state ≠ .waiting) (hm : s.mainCtx = .inResume o) :
    Sim (s.coEntryRet c) (s₂.coEntryRet c) := by
  have hall : s₂.all = s.all := by obtain ⟨m, rfl, -⟩ := h; rfl
  have hc₂ : s₂.live c = true := by rw [h.live_eq, hc]
  have hwake := (h.modCo hc fun r => { r with state := .done }).wakeupLoop c (l := s.all)
    (SkipsDead.modCo hi.stale hc _) (SkipsDead.modCo (hall ▸ hi₂.stale) hc₂ _)
  rw [coEntryRet_eq_bind, coEntryRet_eq_bind, wakeupWaiters, wakeupWaiters]
  rw [show (s₂.modCo c fun r => { r with state := .done }).all = s.all from hall]
  refine hwake.bind fun s' s₂' hx hy ha => ?_
  -- the wakeups change neither `S.main_ctx` nor what is allocated
  obtain ⟨q', hw, -⟩ := wakeupWaiters_eq (s.modCo c fun r => { r with state := .done }) c
    (by rw [waiters_modCo_done hst]; exact (hi.room c).trans hi.lt_queueCap.le)
  have he := Except.ok.inj (hx.symm.trans hw)
  have hlive : s'.live c = true := by rw [he]; exact hc
  have hmain : s'.mainCtx = .inResume o := by rw [he]; exact hm
  have hmain₂ : s₂'.mainCtx = .inResume o := by obtain ⟨m, rfl, -⟩ := ha; exact hmain
  rw [hmain, hmain₂]
  exact (ha.modCo hlive _).switchTo _ (by simp)

theorem runLoop (h : s.Agree s₂) (hi : s.Inv) (who : Option Addr) :
    Sim (s.runLoop who) (s₂.runLoop who) := by
  cases hq : s.runQueue with
  | nil =>
      obtain ⟨m, rfl, hm⟩ := h
      rw [runLoop_nil hq, runLoop_nil (s := { s with mem := m }) hq]
      exact Sim.ok ⟨m, rfl, hm⟩
  | cons co rest =>
      obtain ⟨hl, hst⟩ := hi.mem_runQueue.mp (hq ▸ List.mem_cons_self : co ∈ s.runQueue)
      obtain ⟨q', hp, -⟩ := s.q.pop_cons hq
      obtain ⟨m, rfl, hm⟩ := h
      have hco : m co = s.mem co := hm co hl
      have hbody := hi.ctx co hl hst
      simp only [State.runLoop, runLoopUpTo, qPop, hp, hco, hst, if_true, Except.bind, resumeUpTo,
        Outcome.finish, save, ctxOf, State.modCo, Function.update_self]
      rw [switchTo_body hbody (by simpa using hi.fn co hl),
        switchTo_body hbody (by simpa using hi.fn co hl)]
      exact Sim.ok ⟨_, rfl, fun b hb => update hm _ (.inr hb)⟩

/-- A suspension writes the record of the coroutine it suspends. -/
theorem suspended (h : s.Agree s₂) (hc : s.live c = true)
    (f : Coroutine Fn Arg → Coroutine Fn Arg) (q : Support.Ring Addr queueCap) (o : Option Addr) :
    (s.suspended c (f (s.mem c)) q o).Agree (s₂.suspended c (f (s₂.mem c)) q o) := by
  obtain ⟨m, rfl, hm⟩ := h
  have hco : m c = s.mem c := hm c hc
  simp only [hco]
  exact ⟨_, rfl, fun b hb => update hm _ (.inr hb)⟩

theorem free (h : s.Agree s₂) (hc : s.live c = true) (hd : (s.mem c).state = .done) :
    Sim (s.coFree (some c)) (s₂.coFree (some c)) := by
  obtain ⟨m, rfl, hm⟩ := h
  have hco : m c = s.mem c := hm c hc
  rw [coFree_of_done hd, coFree_of_done (s := { s with mem := m }) (by simpa only [hco] using hd)]
  refine Sim.ok ⟨m, by simp only [freed, hco], fun b hb => hm b ?_⟩
  by_contra hn
  have hne : b ≠ c := fun e => hn (e ▸ hc)
  exact hn (by simpa [freed, hne] using hb)

/-- **A step does the same on both sides.** -/
theorem step (h : s.Agree s₂) (hi : s.Inv) (hi₂ : s₂.Inv) (hs : Step s a s') :
    ∃ s₂', Step s₂ a s₂' ∧ s'.Agree s₂' := by
  suffices hsim : Sim (s.step a) (s₂.step a) by
    obtain ⟨s₂', he, ha⟩ := hsim s' hs.2
    exact ⟨s₂', ⟨h.legal hs.1, he⟩, ha⟩
  have hat := fun hr ha => hi.attached_of_step hs hr ha
  have hq := hi.size_lt
  have hctl : s₂.ctl = s.ctl := by obtain ⟨m, rfl, -⟩ := h; rfl
  obtain ⟨hl, hs⟩ := hs
  cases a with
  | create fn arg n al =>
      obtain ⟨who, o, hc, he⟩ := step_create_inv hs
      obtain ⟨f, rfl, hcount, -⟩ := coCreate_inv he
      rw [step_user hc, step_user (hctl.trans hc)]
      exact h.create who f arg n al hcount hq
  | free co =>
      obtain ⟨⟨who, hc⟩, b, rfl, hb, hd⟩ := hl
      simp only [step_user hc, step_user (hctl.trans hc), call_free]
      exact h.free hb hd
  | yield =>
      obtain ⟨c, hc⟩ := hl
      obtain ⟨hr, o, rest, hf, hm⟩ := hi.holds (hat trivial (by simp)) hc
      have ho := mem_frames hf
      have hlive := (hi.running_of_ctl hc).1
      simp only [step_user hc, step_user (hctl.trans hc), call_yield]
      have ha := h.suspended hlive (fun r => { r with state := .ready, ctx := .inYield (some c) })
        (s.q.push c hq) o
      obtain ⟨m, rfl, -⟩ := h
      rw [coYield_eq hr hm ho hq, coYield_eq (s := { s with mem := m }) hr hm ho hq]
      exact Sim.ok ha
  | await other =>
      obtain ⟨⟨c, hc⟩, b, rfl, hb⟩ := hl
      simp only [step_user hc, step_user (hctl.trans hc), call_await]
      have hst : (s₂.mem b).state = (s.mem b).state := by rw [h.mem_eq hb]
      by_cases hd : (s.mem b).state = .done
      · rw [coAwait_of_done hd, coAwait_of_done (hst.trans hd)]
        exact Sim.ok h
      · obtain ⟨hr, o, rest, hf, hm⟩ := hi.holds (hat hd (by simp)) hc
        have ho := mem_frames hf
        have hlive := (hi.running_of_ctl hc).1
        have ha := h.suspended hlive (fun r => { r with
          state := .waiting, awaiting := some b, ctx := .inAwait (some c) b }) s.q o
        obtain ⟨m, rfl, -⟩ := h
        rw [coAwait_eq hd hr hm ho, coAwait_eq (s := { s with mem := m }) (hst ▸ hd) hr hm ho]
        exact Sim.ok ha
  | run =>
      obtain ⟨who, hc⟩ := hl
      simp only [step_user hc, step_user (hctl.trans hc), call_run]
      obtain ⟨m, rfl, hm⟩ := h
      exact Sim.ok ⟨m, rfl, hm⟩
  | state co =>
      obtain ⟨⟨who, hc⟩, b, rfl, hb⟩ := hl
      simp only [step_user hc, step_user (hctl.trans hc), call_state]
      exact Sim.ok h
  | id =>
      obtain ⟨who, hc⟩ := hl
      simp only [step_user hc, step_user (hctl.trans hc), call_id]
      exact Sim.ok h
  | ret =>
      obtain ⟨c, hc⟩ := hl
      obtain ⟨-, o, -, -, hm⟩ := hi.holds (hat trivial (by simp)) hc
      obtain ⟨hlive, hst⟩ := hi.running_of_ctl hc
      simp only [step_user hc, step_user (hctl.trans hc), call_ret_body]
      exact h.coEntryRet hi hi₂ hlive (by simp [hst]) hm
  | sched =>
      obtain ⟨who, hc⟩ := hl
      rw [step_loop hc, step_loop (hctl.trans hc)]
      exact h.runLoop hi who

end Agree

/-- While code of main or of a body executes, `S.running` is allocated. -/
theorem Inv.live_of_running (hi : s.Inv) {who : Option Addr} (hc : s.ctl = .user who)
    (hr : s.running = some c) : s.live c = true := by
  cases who with
  | none => cases hr.symm.trans (hi.running_main hc)
  | some d =>
      rcases hi.control_body hc with ⟨hrun, -⟩ | ⟨hrun, -⟩
      · obtain rfl : c = d := Option.some.inj (hr.symm.trans hrun)
        exact (hi.running_of_ctl hc).1
      · cases hr.symm.trans hrun

namespace Agree

/-- Ids are in allocated records. -/
theorem idOf_eq (h : s.Agree s₂) (hc : s.live c = true) : s₂.idOf c = s.idOf c := by
  rw [idOf, idOf, h.mem_eq hc]

theorem map_idOf (h : s.Agree s₂) {who : Option Addr}
    (hw : ∀ c, who = some c → s.live c = true) : who.map s₂.idOf = who.map s.idOf :=
  Option.map_congr fun c hc => h.idOf_eq (hw c hc)

theorem waiters_eq (h : s.Agree s₂) (hi : s.Inv) (hi₂ : s₂.Inv) (done : Addr) :
    s₂.waiters done = s.waiters done := by
  have hall : s₂.all = s.all := by obtain ⟨m, rfl, -⟩ := h; rfl
  refine waiters_congr hall fun b hb => ?_
  have htest := h.test_iff done (b := b) (l := [])
    (fun d hd => hi.stale d (List.mem_singleton.mp hd ▸ hb))
    (fun d hd => hi₂.stale d (List.mem_singleton.mp hd ▸ hall ▸ hb))
  simp only [waitsOn, htest]

/-- **The same event happens on both sides.** -/
theorem event_eq (h : s.Agree s₂) (hi : s.Inv) (hi₂ : s₂.Inv) (hl : s.Legal a) :
    s₂.event a = s.event a := by
  have hctl : s₂.ctl = s.ctl := by obtain ⟨m, rfl, -⟩ := h; rfl
  have hall : s₂.all = s.all := by obtain ⟨m, rfl, -⟩ := h; rfl
  have huser : ∀ {who}, s.ctl = .user who → ∀ c, who = some c → s.live c = true :=
    fun hc c e => (hi.running_of_ctl (hc.trans (congrArg _ e))).1
  have hself : s₂.self = s.self := by
    unfold self
    rw [hctl]
    split
    · next c hc => exact h.idOf_eq (huser hc c rfl)
    · rfl
  cases a with
  | create fn arg n al => simp only [event, hall]
  | free co =>
      obtain ⟨-, b, rfl, hb, -⟩ := hl
      simp only [event, Option.map_some, h.idOf_eq hb]
  | state co =>
      obtain ⟨-, b, rfl, hb⟩ := hl
      simp only [event, Option.map_some, h.idOf_eq hb, h.mem_eq hb]
  | yield => simp only [event, hself]
  | await other =>
      obtain ⟨-, b, rfl, hb⟩ := hl
      simp only [event, hself, Option.map_some, h.mem_eq hb, h.idOf_eq hb]
  | run =>
      obtain ⟨who, hc⟩ := hl
      simp only [event, hctl, hc, h.map_idOf (huser hc)]
  | id =>
      obtain ⟨who, hc⟩ := hl
      have hrun : s₂.running = s.running := by obtain ⟨m, rfl, -⟩ := h; rfl
      simp only [event, coId, hrun]
      cases hr : s.running with
      | none => rfl
      | some c => simp only [h.mem_eq (hi.live_of_running hc hr)]
  | ret =>
      obtain ⟨c, hc⟩ := hl
      simp only [event, hself, hctl, hc, h.waiters_eq hi hi₂]
      rw [List.map_congr_left fun b hb => h.idOf_eq (hi.live_of_mem_waiters hb)]
  | sched =>
      obtain ⟨who, hc⟩ := hl
      have hqueue : s₂.runQueue = s.runQueue := by obtain ⟨m, rfl, -⟩ := h; rfl
      simp only [event, hqueue]
      cases hq : s.runQueue with
      | nil =>
          obtain ⟨rest, hf⟩ := hi.control_loop hc
          have hwho : ∀ c, who = some c → s.live c = true :=
            fun c e => hi.framed c (by rw [hf, e]; exact List.mem_cons_self)
          simp only [hctl, hc, h.map_idOf hwho]
      | cons co rest =>
          have hco := hi.queued co (by rw [hq]; exact List.mem_cons_self)
          have htask : (s.mem co).task s₂.idOf false = (s.mem co).task s.idOf false :=
            Coroutine.task_congr _ fun t ht => h.idOf_eq (hi.target co t hco ht)
          simp only [h.mem_eq hco, h.idOf_eq hco, htask]

end Agree

end State

end CCoroutine
