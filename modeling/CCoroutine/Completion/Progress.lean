import CCoroutine.Completion.Handles
import CCoroutine.Completion.Programs

/-!
# Completion — Progress

Finite programs make progress, whatever their awaits target.  Each call consumes a command and each
turn of the scheduler loop leads to a call or ends the run, so twice the number of commands left,
plus one inside the loop, decreases (`Sound.step`).
-/

namespace CCoroutine
open CCoroutine.Ideal (Task Sys Ev)

variable {L : Type}

/-! ### Sums over the bodies -/

/-- `f` summed over what is left of the bodies of the coroutines `0, …, n`. -/
def total (f : Code L → ℕ) (code : ℕ → Option (Code L)) (n : ℕ) : ℕ :=
  ∑ k ∈ Finset.range (n + 1), (code k).elim 0 f

theorem total_update (f : Code L → ℕ) (code : ℕ → Option (Code L)) {k n : ℕ} (hk : k ≤ n)
    (o : Option (Code L)) :
    total f (Function.update code k o) n + (code k).elim 0 f = total f code n + o.elim 0 f := by
  have hm : k ∈ Finset.range (n + 1) := Finset.mem_range.mpr (Nat.lt_succ_of_le hk)
  have hrest : ∑ j ∈ (Finset.range (n + 1)).erase k, (Function.update code k o j).elim 0 f =
      ∑ j ∈ (Finset.range (n + 1)).erase k, (code j).elim 0 f :=
    Finset.sum_congr rfl fun j hj => by rw [Function.update_of_ne (Finset.ne_of_mem_erase hj)]
  unfold total
  rw [← Finset.add_sum_erase _ _ hm, hrest,
    ← Finset.add_sum_erase _ (fun j => (code j).elim 0 f) hm, Function.update_self]
  omega

theorem total_new (f : Code L → ℕ) (code : ℕ → Option (Code L)) (n : ℕ) (b : Code L) :
    total f (Function.update code (n + 1) (some b)) (n + 1) = total f code n + f b := by
  unfold total
  rw [Finset.sum_range_succ, Function.update_self]
  refine congrArg₂ (· + ·) (Finset.sum_congr rfl fun j hj => ?_) rfl
  rw [Function.update_of_ne (Finset.mem_range.mp hj).ne]

/-- The coroutines a command creates, by the created body too. -/
def Cmd.creates : Cmd L → ℕ
  | .create f => 1 + f.body.creates
  | .yield | .await _ | .ret | .run | .turn => 0

/-- The commands of a command: a call is one, with those of the body it creates. -/
def Cmd.size : Cmd L → ℕ
  | .create f => 1 + f.body.size
  | .yield | .await _ | .ret | .run => 1
  | .turn => 0

/-- The body a command brings into being. -/
def Cmd.newBody : Cmd L → Option (Code L)
  | .create f => some f.body
  | .yield | .await _ | .ret | .run | .turn => none

theorem Code.size_eq (c : Code L) : c.size = c.tail.elim 0 Code.size + c.head.size := by
  cases c with
  | ret | yield | await => simp [size, tail, head, Cmd.size, Nat.add_comm]
  | create l b rest => simp [size, tail, head, Cmd.size]; omega

theorem Code.creates_eq (c : Code L) :
    c.creates = c.tail.elim 0 Code.creates + c.head.creates := by
  cases c with
  | ret | yield | await => simp [creates, tail, head, Cmd.creates]
  | create l b rest => simp [creates, tail, head, Cmd.creates]; omega

/-! ### The invariant of a program in execution -/

namespace PState

variable {N : ℕ} {p : PState L} {c : Cmd L}

/-- The coroutines the program has still to create. -/
def creates (p : PState L) : ℕ := total Code.creates p.code p.s.all.length + p.main.creates

/-- The commands that are left, main's `co_run` included. -/
def work (p : PState L) : ℕ :=
  total Code.size p.code p.s.all.length + p.main.size + if p.called then 0 else 1

/-- What decreases in every step. -/
def measure (p : PState L) : ℕ :=
  2 * p.work + match p.s.ctl with | .loop _ => 1 | .user _ => 0

theorem measure_lt {p' : PState L} (hw : p'.work < p.work) : p'.measure < p.measure := by
  unfold measure
  cases p'.s.ctl <;> simp only <;> omega

/-- The invariant of a program that creates `N` coroutines. -/
structure Sound (N : ℕ) (p : PState L) : Prop where
  inv : p.s.InvM
  /-- The coroutines that are not done have something left to do. -/
  code : ∀ k, p.code k ≠ none ↔ p.s.abs.Unfinished k
  env : ∀ l a, p.env l = some a → p.s.live a = true
  count : p.s.all.length + p.creates = N
  room : N ≤ maxCoroutines
  before : p.called = false → p.s.ctl = .user none
  returned : p.called = true → p.main = [] ∧ (p.s.ctl = .user none → p.s.runQueue = [])

/-! ### The next command -/

/-- The next command of a program, and the program past it. -/
inductive Next (p : PState L) : Cmd L → PState L → Prop where
  | turn {who : Option Addr} (hc : p.s.ctl = .loop who) : Next p .turn p
  | create {f : Routine L} {rest : Program L} (hc : p.s.ctl = .user none)
      (hm : p.main = f :: rest) : Next p (.create f) { p with main := rest }
  | run (hc : p.s.ctl = .user none) (hm : p.main = []) (hn : p.called = false) :
      Next p .run { p with called := true }
  | body {x : Addr} {cd : Code L} (hc : p.s.ctl = .user (some x))
      (hcd : p.code (p.s.idOf x) = some cd) :
      Next p cd.head { p with code := Function.update p.code (p.s.idOf x) cd.tail }

theorem next_of_cmd (h : p.cmd = some c) : p.Next c p.pop := by
  cases hc : p.s.ctl with
  | loop who =>
      obtain rfl : Cmd.turn = c := by simpa [cmd, hc] using h
      have hpop : p.pop = p := by simp [pop, hc]
      exact hpop.symm ▸ .turn hc
  | user who =>
      cases who with
      | some x =>
          obtain ⟨cd, hcd, rfl⟩ : ∃ cd, p.code (p.s.idOf x) = some cd ∧ cd.head = c := by
            simpa [cmd, hc, Option.map_eq_some_iff] using h
          have hpop : p.pop = { p with code := Function.update p.code (p.s.idOf x) cd.tail } := by
            simp [pop, hc, hcd]
          exact hpop.symm ▸ .body hc hcd
      | none =>
          cases hmain : p.main with
          | nil =>
              cases hn : p.called with
              | true => simp [cmd, hc, hmain, hn] at h
              | false =>
                  obtain rfl : Cmd.run = c := by simpa [cmd, hc, hmain, hn] using h
                  have hpop : p.pop = { p with called := true } := by simp [pop, hc, hmain]
                  exact hpop.symm ▸ .run hc hmain hn
          | cons f rest =>
              obtain rfl : Cmd.create f = c := by simpa [cmd, hc, hmain] using h
              have hpop : p.pop = { p with main := rest } := by simp [pop, hc, hmain]
              exact hpop.symm ▸ .create hc hmain

namespace Sound

theorem le_of_code (h : p.Sound N) {k : ℕ} {cd : Code L} (hcd : p.code k = some cd) :
    k ≤ p.s.all.length := by
  obtain ⟨t, ht, -⟩ := (h.code k).mp (by simp [hcd])
  exact ((h.inv.ideal.range k).mp (by simp [ht])).2

theorem pop_creates (h : p.Sound N) {q : PState L} (hq : p.Next c q) :
    q.creates + c.creates = p.creates := by
  cases hq with
  | turn hc => rfl
  | create hc hm => simp [creates, Program.creates, hm, Cmd.creates]; omega
  | run hc hm hn => rfl
  | @body x cd hc hcd =>
      have htotal := total_update Code.creates p.code (h.le_of_code hcd) cd.tail
      have hcr := cd.creates_eq
      simp only [hcd, Option.elim_some] at htotal
      simp only [creates]
      omega

theorem pop_work (h : p.Sound N) {q : PState L} (hq : p.Next c q) : q.work + c.size = p.work := by
  cases hq with
  | turn hc => rfl
  | create hc hm => simp [work, Program.size, hm, Cmd.size]; omega
  | run hc hm hn => simp [work, hn, Cmd.size]
  | @body x cd hc hcd =>
      have htotal := total_update Code.size p.code (h.le_of_code hcd) cd.tail
      have hsize := cd.size_eq
      simp only [hcd, Option.elim_some] at htotal
      simp only [work]
      omega

end Sound

/-! ### One step -/

section

variable {q : PState L} {m : Addr × Addr} {s' : State (Routine L) Unit}

theorem Next.state_eq (hq : p.Next c q) : q.s = p.s := by
  cases hq <;> rfl

theorem Next.loop_of_turn (hq : p.Next c q) (hc : c = .turn) : ∃ who, p.s.ctl = .loop who := by
  cases hq with
  | turn hl => exact ⟨_, hl⟩
  | create | run => cases hc
  | @body x cd => cases cd <;> cases hc

theorem ret_of_event {k : ℕ} {ws : List ℕ} (he : p.s.event (p.act m c) = .finished k ws) :
    c = .ret ∧ k = p.s.self := by
  have ha : p.act m c = .ret := State.causes_of_event he
  cases c with
  | ret =>
      simp only [act, State.event, Ev.finished.injEq] at he
      exact ⟨rfl, he.1.symm⟩
  | create | yield | await | run | turn => cases ha

theorem create_of_event {k : ℕ} {fn : Option (Routine L)} {arg : Option Unit}
    (he : p.s.event (p.act m c) = .created k fn arg) : ∃ f, c = .create f := by
  obtain ⟨_, _, _, _, ha⟩ := State.causes_of_event he
  cases c with
  | create f => exact ⟨f, rfl⟩
  | yield | await | ret | run | turn => cases ha

/-- Nothing is left of what a step finishes. -/
theorem Next.code_iff (hq : p.Next c q) (m : Addr × Addr) (k : ℕ) :
    q.code k ≠ none ↔ p.code k ≠ none ∧ ∀ ws, p.s.event (p.act m c) ≠ .finished k ws := by
  have keeps : c ≠ .ret → (p.code k ≠ none ↔
      p.code k ≠ none ∧ ∀ ws, p.s.event (p.act m c) ≠ .finished k ws) := by
    intro hc
    exact (and_iff_left fun ws he => hc (ret_of_event he).1).symm
  cases hq with
  | turn hc => exact keeps (by simp)
  | create hc hm => exact keeps (by simp)
  | run hc hm hn => exact keeps (by simp)
  | @body x cd hc hcd =>
      by_cases e : k = p.s.idOf x
      · subst e
        cases cd with
        | ret => simp [Code.head, Code.tail, act, State.event, State.self_eq hc]
        | yield | await | create => simpa [Code.tail, hcd] using keeps (by simp [Code.head])
      · have hne : ∀ ws, p.s.event (p.act m cd.head) ≠ .finished k ws := fun ws he =>
          e ((ret_of_event he).2.trans (State.self_eq hc))
        simp [e, hne]

/-- A created coroutine gets a body. -/
theorem bindNew_code_iff [DecidableEq L] (hs : q.s = p.s) (k : ℕ) :
    (q.bindNew m c).code k ≠ none ↔
      q.code k ≠ none ∨ ∃ fn arg, p.s.event (p.act m c) = .created k fn arg := by
  have keeps : (∀ f, c ≠ .create f) → (q.code k ≠ none ↔
      q.code k ≠ none ∨ ∃ fn arg, p.s.event (p.act m c) = .created k fn arg) := by
    intro hc
    refine (or_iff_left ?_).symm
    rintro ⟨fn, arg, he⟩
    obtain ⟨f, rfl⟩ := create_of_event he
    exact hc f rfl
  cases c with
  | yield | await | ret | run | turn => exact keeps (by simp)
  | create f =>
      by_cases e : k = p.s.all.length + 1
      · simp [bindNew, act, State.event, hs, e]
      · simp [bindNew, act, State.event, hs, e, Ne.symm e]

namespace Sound

/-- The next call is legal, when the allocator returns unused memory and a handle to be awaited has
been stored. -/
theorem legal (h : p.Sound N) (hq : p.Next c q) (hm : ∀ f, c = .create f → p.s.live m.1 = false)
    (ha : ∀ l, c = .await l → p.env l ≠ none) :
    p.s.Legal (p.act m c) ∧ p.s.FromMain (p.act m c) := by
  cases hq with
  | turn hc => exact ⟨⟨_, hc⟩, trivial⟩
  | create hc _ => exact ⟨⟨⟨_, hc⟩, Option.some_ne_none _, hm _ rfl⟩, trivial⟩
  | run hc _ _ => exact ⟨⟨_, hc⟩, hc⟩
  | @body x cd hc hcd =>
      cases cd with
      | ret | yield => exact ⟨⟨x, hc⟩, trivial⟩
      | create l b rest => exact ⟨⟨⟨_, hc⟩, Option.some_ne_none _, hm _ rfl⟩, trivial⟩
      | await l rest =>
          obtain ⟨b, hb⟩ := Option.ne_none_iff_exists'.mp (ha l rfl)
          exact ⟨⟨⟨x, hc⟩, b, hb, h.env l b hb⟩, trivial⟩

/-- The next call succeeds: a program that still creates coroutines has room for them. -/
theorem exists_step (h : p.Sound N) (hq : p.Next c q)
    (hm : ∀ f, c = .create f → p.s.live m.1 = false) (ha : ∀ l, c = .await l → p.env l ≠ none) :
    ∃ s', StepM p.s (p.act m c) s' := by
  obtain ⟨hl, hf⟩ := h.legal hq hm ha
  have hroom : ¬ p.s.TableFull (p.act m c) := by
    rintro ⟨⟨fn, arg, n, o, hact⟩, hfull⟩
    have hcreates := h.pop_creates hq
    have hcount := h.count
    have hN := h.room
    cases c with
    | create f => simp only [Cmd.creates] at hcreates; omega
    | yield | await | ret | run | turn => cases hact
  exact h.inv.exists_step hl hf hroom

variable [DecidableEq L]

/-- The handles are those of unfreed coroutines. -/
theorem env_step (h : p.Sound N) (hs : StepM p.s (p.act m c) s') (he : q.env = p.env) :
    ∀ l a, (q.bindNew m c).env l = some a → s'.live a = true := by
  have keeps : ∀ l a, q.env l = some a → s'.live a = true := by
    intro l a ha
    refine (h.inv.handle_step hs (fun co hfree => ?_) (h.env l a (he ▸ ha))).1
    cases c <;> cases hfree
  intro l a ha
  cases c with
  | yield | await | ret | run | turn => exact keeps l a ha
  | create f =>
      by_cases e : l = f.label
      · subst e
        obtain rfl : m.1 = a := by simpa [bindNew] using ha
        rcases State.step_table hs.1.2 with ⟨hn, -⟩ | ⟨co, hco, -, hlive⟩ | ⟨co, hfree, -⟩
        · cases hn
        · cases hco
          simp [hlive]
        · cases hfree
      · exact keeps l a (by simpa [bindNew, e] using ha)

end Sound

/-- The sums over the bodies, with the new one. -/
theorem total_bindNew [DecidableEq L] (f : Code L → ℕ) (hq : q.s = p.s)
    (hs : p.s.step (p.act m c) = .ok s') :
    total f (q.bindNew m c).code s'.all.length =
      total f q.code p.s.all.length + c.newBody.elim 0 f := by
  rw [State.step_all hs]
  cases c with
  | create g => simp [bindNew, act, Act.newAddr, Cmd.newBody, hq, total_new]
  | yield | await | ret | run | turn => simp [bindNew, act, Act.newAddr, Cmd.newBody]

theorem length_all_step (hs : p.s.step (p.act m c) = .ok s') :
    s'.all.length + c.newBody.elim 0 Code.creates = p.s.all.length + c.creates := by
  rw [State.step_all hs]
  cases c <;> simp [act, Act.newAddr, Cmd.newBody, Cmd.creates, Nat.add_assoc]

namespace Sound

/-- Main executes before its `co_run`, and finds the run-queue empty after it. -/
theorem main_step (h : p.Sound N) (hq : p.Next c q) (hs : StepM p.s (p.act m c) s') :
    (q.called = false → s'.ctl = .user none) ∧
      (q.called = true → q.main = [] ∧ (s'.ctl = .user none → s'.runQueue = [])) := by
  obtain ⟨hstep, -⟩ := h.inv.refines hs
  have hback : (∀ k, p.s.abs.ctl ≠ .user k) → s'.ctl = .user none → s'.runQueue = [] := by
    intro hne hm
    rcases hstep.main_of (State.abs_ctl_user hm) with hA | ⟨-, hempty⟩
    · exact absurd hA (hne _)
    · exact List.map_eq_nil_iff.mp hempty
  cases hq with
  | turn hc =>
      refine ⟨fun hn => ?_, fun hcalled => ⟨(h.returned hcalled).1, hback ?_⟩⟩
      · cases (h.before hn).symm.trans hc
      · simp [State.abs_ctl_loop hc]
  | create hc hm =>
      refine ⟨fun _ => ?_, fun hcalled => ?_⟩
      · exact State.abs_ctl_main_iff.mp (hstep.created_ctl.trans (State.abs_ctl_user hc))
      · rw [(h.returned hcalled).1] at hm
        cases hm
  | run hc hm hn =>
      refine ⟨nofun, fun _ => ⟨hm, fun hmain => ?_⟩⟩
      cases hstep.runCalled_ctl.symm.trans (State.abs_ctl_user hmain)
  | @body x cd hc hcd =>
      refine ⟨fun hn => ?_, fun hcalled => ⟨(h.returned hcalled).1, fun hmain => ?_⟩⟩
      · cases (h.before hn).symm.trans hc
      · rcases hstep.main_of (State.abs_ctl_user hmain) with hA | ⟨⟨w, hA⟩, -⟩ <;>
          cases (State.abs_ctl_user hc).symm.trans hA

/-- **Every step keeps the invariant and decreases the measure.** -/
theorem step [DecidableEq L] (h : p.Sound N) (hq : p.Next c q) (hs : StepM p.s (p.act m c) s') :
    Sound N { q.bindNew m c with s := s' } ∧
      measure { q.bindNew m c with s := s' } < p.measure := by
  obtain ⟨hstep, hinv⟩ := h.inv.refines hs
  have hqs := hq.state_eq
  have hcr := h.pop_creates hq
  have hwork := h.pop_work hq
  have hmain : (q.bindNew m c).main = q.main := by cases c <;> rfl
  have hcalled : (q.bindNew m c).called = q.called := by cases c <;> rfl
  have henv : q.env = p.env := by cases hq <;> rfl
  obtain ⟨hbefore, hreturned⟩ := h.main_step hq hs
  constructor
  · refine ⟨hinv, fun k => ?_, h.env_step hs henv, ?_, h.room, fun hn => hbefore (hcalled ▸ hn),
      fun hc => hmain ▸ hreturned (hcalled ▸ hc)⟩
    · rw [hstep.unfinished_iff h.inv.ideal, ← h.code k, ← hq.code_iff m k]
      exact bindNew_code_iff hqs k
    · have htotal := total_bindNew Code.creates hqs hs.1.2
      have hlen := length_all_step hs.1.2
      have hcount := h.count
      simp only [creates, hmain, htotal]
      simp only [creates, hqs] at hcr hcount
      omega
  · have htotal := total_bindNew Code.size hqs hs.1.2
    have hwork' : work { q.bindNew m c with s := s' } = q.work + c.newBody.elim 0 Code.size := by
      simp only [work, hmain, hcalled, htotal, hqs]
      omega
    by_cases hc : c = .turn
    · -- the same commands are left, and the loop is over
      obtain ⟨who, hloop⟩ := hq.loop_of_turn hc
      subst hc
      obtain ⟨w, hw⟩ := hstep.user_of_loop (State.abs_ctl_loop hloop)
      have huser : ∃ w, s'.ctl = .user w := by
        cases hs' : s'.ctl with
        | user w => exact ⟨w, rfl⟩
        | loop w => cases (State.abs_ctl_loop hs').symm.trans hw
      obtain ⟨w, hw⟩ := huser
      simp only [Cmd.newBody, Cmd.size, Option.elim_none, Nat.add_zero] at hwork' hwork
      simp [measure, hwork', hwork, hw, hloop]
    · have hlt : c.newBody.elim 0 Code.size < c.size := by
        cases c with
        | turn => exact absurd rfl hc
        | create f => exact Nat.lt_add_of_pos_left Nat.one_pos
        | yield | await | ret | run => exact Nat.one_pos
      exact measure_lt (by omega)

/-- **Every step of the program succeeds**, keeps the invariant and decreases the measure. -/
theorem exec [DecidableEq L] (h : p.Sound N) (hcmd : p.cmd = some c)
    (hm : ∀ f, c = .create f → p.s.live m.1 = false) (ha : ∀ l, c = .await l → p.env l ≠ none) :
    ∃ s', StepM p.s (p.act m c) s' ∧ p.exec m = .ok { p.pop.bindNew m c with s := s' } ∧
      Sound N { p.pop.bindNew m c with s := s' } ∧
      measure { p.pop.bindNew m c with s := s' } < p.measure := by
  have hq := next_of_cmd hcmd
  obtain ⟨s', hs⟩ := h.exists_step hq hm ha
  refine ⟨s', hs, ?_, h.step hq hs⟩
  simp only [PState.exec, hcmd, hs.1.2]
  rfl

/-- When nothing is left to do, main's `co_run` has returned. -/
theorem ended (h : p.Sound N) (hcmd : p.cmd = none) :
    p.s.ctl = .user none ∧ p.main = [] ∧ p.called = true := by
  cases hc : p.s.ctl with
  | loop who => simp [cmd, hc] at hcmd
  | user who =>
      cases who with
      | none =>
          cases hmain : p.main with
          | nil => exact ⟨rfl, rfl, by simpa [cmd, hc, hmain] using hcmd⟩
          | cons f rest => simp [cmd, hc, hmain] at hcmd
      | some x =>
          obtain ⟨t, ht, hst⟩ := h.inv.ideal.running_of_ctl (State.abs_ctl_user hc)
          have hcode : p.code (p.s.idOf x) = none := by simpa [cmd, hc] using hcmd
          exact absurd hcode ((h.code _).mpr ⟨t, ht, by simp [hst]⟩)

end Sound

end

/-! ### Runs -/

section

variable [DecidableEq L] {p₀ : PState L} {alloc : ℕ → Addr × Addr}

theorem run_succ {n : ℕ} (h : p₀.run alloc n = .ok p) :
    p₀.run alloc (n + 1) = p.exec (alloc n) := by
  rw [run, h]
  rfl

theorem trace_succ {n : ℕ} (h : p₀.run alloc n = .ok p) :
    p₀.trace alloc (n + 1) = p₀.trace alloc n ++ (p.event (alloc n)).toList := by
  rw [trace, h]
  rfl

/-- An allocator that never returns an address twice returns unused memory. -/
theorem live_eq_false (hinj : ∀ i j, (alloc i).1 = (alloc j).1 → i = j)
    (h₀ : ∀ i, p₀.s.live (alloc i).1 = false) {n : ℕ} :
    ∀ {p}, p₀.run alloc n = .ok p → ∀ i, n ≤ i → p.s.live (alloc i).1 = false := by
  induction n with
  | zero =>
      rintro p ⟨⟩ i -
      exact h₀ i
  | succ n ih =>
      intro p' hp' i hi
      obtain ⟨p, hp, he⟩ := State.exists_of_bind_eq_ok hp'
      have hold := ih hp i (Nat.le_of_succ_le hi)
      cases hcmd : p.cmd with
      | none =>
          simp only [exec, hcmd] at he
          cases he
          exact hold
      | some c =>
          simp only [exec, hcmd] at he
          cases hs : p.s.step (p.act (alloc n) c) with
          | error e => rw [hs] at he; cases he
          | ok s' =>
              rw [hs] at he
              cases he
              rcases State.step_table hs with ⟨-, -, hlive⟩ | ⟨co, hco, -, hlive⟩ | ⟨co, hfree, -⟩
              · exact (congrFun hlive _).trans hold
              · have hne : (alloc i).1 ≠ co := by
                  cases c with
                  | create f =>
                      cases hco
                      exact fun e => absurd (hinj i n e) (by omega)
                  | yield | await | ret | run | turn => cases hco
                exact (congrFun hlive _).trans ((Function.update_of_ne hne _ _).trans hold)
              · cases c <;> cases hfree

section

variable {Q : List (Ev (Routine L) Unit) → PState L → Prop}
  (hsound : ∀ es p, Q es p → p.Sound N)
  (hstep : ∀ es p c m s', Q es p → p.cmd = some c → (∀ l, c = .await l → p.env l ≠ none) →
      StepM p.s (p.act m c) s' →
      Q (es ++ [p.s.event (p.act m c)]) { p.pop.bindNew m c with s := s' })
  (h₀ : Q [] p₀)
  (hfree : ∀ n p f, p₀.run alloc n = .ok p → p.cmd = some (.create f) →
      p.s.live (alloc n).1 = false)
  (hset : ∀ n p l, p₀.run alloc n = .ok p → p.cmd = some (.await l) → p.env l ≠ none)

include hsound hstep h₀ hfree hset

/-- **The rule for runs.**  What the steps of a program preserve, with what has happened so far,
holds after `n` steps; and the program has ended or the measure has dropped by `n`. -/
theorem run_invariant (n : ℕ) :
    ∃ p, p₀.run alloc n = .ok p ∧ Q (p₀.trace alloc n) p ∧
      (p.cmd = none ∨ p.measure + n ≤ p₀.measure) := by
  induction n with
  | zero => exact ⟨p₀, rfl, h₀, .inr le_rfl⟩
  | succ n ih =>
      obtain ⟨p, hp, hQ, hle⟩ := ih
      rw [run_succ hp, trace_succ hp, event]
      cases hcmd : p.cmd with
      | none => exact ⟨p, by simp [exec, hcmd], by simpa using hQ, .inl hcmd⟩
      | some c =>
          have hawait : ∀ l, c = .await l → p.env l ≠ none := fun l e => hset n p l hp (e ▸ hcmd)
          obtain ⟨s', hs, he, -, hlt⟩ := (hsound _ p hQ).exec hcmd
            (fun f e => hfree n p f hp (e ▸ hcmd)) hawait
          refine ⟨_, he, hstep _ p c _ s' hQ hcmd hawait hs, .inr ?_⟩
          have := hle.resolve_left (by simp [hcmd])
          omega

/-- **The program ends.** -/
theorem run_ends : ∃ n p, p₀.run alloc n = .ok p ∧ Q (p₀.trace alloc n) p ∧ p.cmd = none := by
  obtain ⟨p, hp, hQ, hend⟩ := run_invariant hsound hstep h₀ hfree hset (p₀.measure + 1)
  exact ⟨_, p, hp, hQ, hend.resolve_right (by omega)⟩

end

end

end PState

end CCoroutine
