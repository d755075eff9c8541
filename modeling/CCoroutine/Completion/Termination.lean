import CCoroutine.Completion.Progress
import CCoroutine.Completion.Return

/-!
# Completion — Termination

A finite program whose awaits go down a strict order of the labels completes: one `co_run` from
main returns with every coroutine done.

The program ends because it makes progress (`Sound.step`).  When `co_run` has returned, a coroutine
that is not done would lie ahead of a cycle of `awaiting` links (`Quiet.all_done_iff`), and links go
down the order (`Good.waits`).
-/

namespace CCoroutine
open CCoroutine.Ideal (Task Sys Ev)

variable {L : Type}

theorem Code.Ordered.tail {r : L → L → Prop} {l : L} {c c' : Code L} (h : c.Ordered r l)
    (hc : c.tail = some c') : c'.Ordered r l := by
  cases c with
  | ret => cases hc
  | create _ _ _ => cases hc; exact h.2
  | yield _ => cases hc; exact h
  | await _ _ => cases hc; exact h.2

/-! ### Labels -/

/-- The label of the coroutine with id `k`. -/
def labelOf (A : Sys (Routine L) Unit) (k : ℕ) : Option L :=
  (A.task k).bind fun t => t.fn.map Routine.label

/-- A strict order, on labels that exist. -/
def below (r : L → L → Prop) : Option L → Option L → Prop
  | some a, some b => r a b
  | _, _ => False

instance below_isStrictOrder (r : L → L → Prop) [IsStrictOrder L r] :
    IsStrictOrder (Option L) (below r) where
  irrefl
    | none => id
    | some a => irrefl a
  trans
    | some a, some b, some c, hab, hbc => IsTrans.trans a b c hab hbc

theorem labelOf_step {A B : Sys (Routine L) Unit} {e : Ev (Routine L) Unit} (h : Ideal.Inv A)
    (hs : Ideal.Step A e B) {k : ℕ} (hk : A.task k ≠ none) : labelOf B k = labelOf A k := by
  obtain ⟨t, ht⟩ := Option.ne_none_iff_exists'.mp hk
  obtain ⟨u, hu, hfn, -⟩ := hs.keeps h ht
  simp [labelOf, ht, hu, hfn]

theorem task_ne_none_of_labelOf {A : Sys (Routine L) Unit} {k : ℕ} {l : L}
    (h : labelOf A k = some l) : A.task k ≠ none := by
  intro hn
  simp [labelOf, hn] at h

/-! ### The invariant of a program in execution -/

namespace PState

variable {r : L → L → Prop} {N : ℕ} {p : PState L}

/-- The invariant of a program that creates `N` coroutines and whose awaits go down `r`. -/
structure Good (r : L → L → Prop) (N : ℕ) (p : PState L) : Prop extends Sound N p where
  ordered : ∀ k c, p.code k = some c → ∃ l, labelOf p.s.abs k = some l ∧ c.Ordered r l
  mainOrdered : p.main.Ordered r
  /-- The variable of a label holds a coroutine with that label. -/
  labels : ∀ l a, p.env l = some a → labelOf p.s.abs (p.s.idOf a) = some l
  waits : ∀ k j, p.s.abs.WaitsOn k j → below r (labelOf p.s.abs j) (labelOf p.s.abs k)

theorem good_start {prog : Program L} (hr : prog.Ordered r)
    (hcount : prog.creates ≤ maxCoroutines) : (start prog).Good r prog.creates where
  inv := State.invM_init
  code k := by simp [start, State.abs_init, Sys.Unfinished, Sys.init]
  env l a h := by cases h
  count := by simp [start, creates, total, State.init]
  room := hcount
  before _ := rfl
  returned h := by cases h
  ordered k c hc := by cases hc
  mainOrdered := hr
  labels l a h := by cases h
  waits k j := by
    rintro ⟨t, ht, -⟩
    simp [start, State.abs_init, Sys.init] at ht

/-! ### One step -/

section

variable {c : Cmd L} {q : PState L} {m : Addr × Addr} {s' : State (Routine L) Unit}

/-- What is left of the bodies is in order, and so is a new body. -/
theorem Good.ordered_next (h : p.Good r N) (hq : p.Next c q) :
    (∀ k cd, q.code k = some cd → ∃ l, labelOf p.s.abs k = some l ∧ cd.Ordered r l) ∧
      q.main.Ordered r ∧ ∀ f, c = .create f → f.body.Ordered r f.label := by
  cases hq with
  | turn hc => exact ⟨h.ordered, h.mainOrdered, nofun⟩
  | run hc hm hn => exact ⟨h.ordered, h.mainOrdered, nofun⟩
  | create hc hm =>
      have hord := h.mainOrdered
      rw [hm] at hord
      refine ⟨h.ordered, fun g hg => hord g (List.mem_cons_of_mem _ hg), ?_⟩
      rintro f ⟨⟩
      exact hord _ List.mem_cons_self
  | @body x cd hc hcd =>
      obtain ⟨l, hl, hord⟩ := h.ordered _ cd hcd
      refine ⟨fun k c' hk => ?_, h.mainOrdered, fun f hf => ?_⟩
      · by_cases e : k = p.s.idOf x
        · subst e
          exact ⟨l, hl, hord.tail (by simpa using hk)⟩
        · exact h.ordered k c' (by simpa [e] using hk)
      · cases cd with
        | create t b rest => cases hf; exact hord.1
        | ret | yield | await => cases hf

/-- A wait begins on a smaller label. -/
theorem Good.below_of_blocked (h : p.Good r N) (hq : p.Next c q)
    (ha : ∀ l, c = .await l → p.env l ≠ none) {k j : ℕ}
    (he : p.s.event (p.act m c) = .blocked k j) :
    below r (labelOf p.s.abs j) (labelOf p.s.abs k) := by
  obtain ⟨other, hact⟩ := State.causes_of_event he
  cases hq with
  | turn | run | create => cases hact
  | @body x cd hc hcd =>
      obtain ⟨l, hl, hord⟩ := h.ordered _ cd hcd
      cases cd with
      | ret | yield | create => cases hact
      | await t rest =>
          obtain ⟨b, hb⟩ := Option.ne_none_iff_exists'.mp (ha t rfl)
          simp only [Code.head, act, hb, State.event, State.self_eq hc, Option.map_some,
            Option.getD_some] at he
          split at he
          · cases he
          · cases he
            rw [hl, h.labels t b hb]
            exact hord.1

/-- The label of a new coroutine. -/
theorem Good.labelOf_new (h : p.Good r N) {f : Routine L}
    (hs : StepM p.s (p.act m (.create f)) s') :
    labelOf s'.abs (p.s.all.length + 1) = some f.label ∧ s'.idOf m.1 = p.s.all.length + 1 := by
  have hstep := (h.inv.refines hs).1
  have hnew : s'.abs.task (p.s.all.length + 1) = _ := (hstep.created_inv h.inv.ideal).2
  exact ⟨by rw [labelOf, hnew]; rfl, State.step_create_id hs.1.2⟩

/-- **Every step keeps the order of the labels.** -/
theorem Good.step [DecidableEq L] (h : p.Good r N) (hq : p.Next c q)
    (hs : StepM p.s (p.act m c) s') (ha : ∀ l, c = .await l → p.env l ≠ none) :
    Good r N { q.bindNew m c with s := s' } := by
  obtain ⟨hstep, hi⟩ := h.inv.refines hs
  obtain ⟨hcode, hmain, hbody⟩ := h.ordered_next hq
  have hlabel : ∀ k l, labelOf p.s.abs k = some l → labelOf s'.abs k = some l := fun k l hl =>
    (labelOf_step h.inv.ideal hstep (task_ne_none_of_labelOf hl)).trans hl
  refine ⟨(h.toSound.step hq hs).1, fun k cd hk => ?_, ?_, fun l a ha => ?_, fun k j hw => ?_⟩
  · have hold : ∀ k cd, q.code k = some cd → ∃ l, labelOf s'.abs k = some l ∧ cd.Ordered r l := by
      intro k cd hk
      obtain ⟨l, hl, hord⟩ := hcode k cd hk
      exact ⟨l, hlabel k l hl, hord⟩
    cases c with
    | yield | await | ret | run | turn => exact hold k cd hk
    | create f =>
        by_cases e : k = p.s.all.length + 1
        · obtain rfl : f.body = cd := by simpa [bindNew, hq.state_eq, e] using hk
          exact ⟨f.label, e ▸ (h.labelOf_new hs).1, hbody f rfl⟩
        · exact hold k cd (by simpa [bindNew, hq.state_eq, e] using hk)
  · cases c <;> exact hmain
  · have hold : q.env l = some a → labelOf s'.abs (s'.idOf a) = some l := by
      intro ha
      have henv : q.env = p.env := by cases hq <;> rfl
      have ha := henv ▸ ha
      have hfree : ∀ co, p.act m c ≠ .free co := fun co hfree => by cases c <;> cases hfree
      have hid := (h.inv.handle_step hs hfree (h.env l a ha)).2
      rw [hid]
      exact hlabel _ l (h.labels l a ha)
    cases c with
    | yield | await | ret | run | turn => exact hold ha
    | create f =>
        by_cases e : l = f.label
        · subst e
          obtain rfl : m.1 = a := by simpa [bindNew] using ha
          obtain ⟨hl, hid⟩ := h.labelOf_new hs
          rw [hid, hl]
        · exact hold (by simpa [bindNew, e] using ha)
  · have mono : below r (labelOf p.s.abs j) (labelOf p.s.abs k) →
        below r (labelOf s'.abs j) (labelOf s'.abs k) := by
      intro hlt
      cases hj : labelOf p.s.abs j with
      | none => rw [hj] at hlt; exact hlt.elim
      | some lj =>
          cases hk : labelOf p.s.abs k with
          | none => rw [hj, hk] at hlt; exact hlt.elim
          | some lk =>
              rw [hlabel j lj hj, hlabel k lk hk]
              rwa [hj, hk] at hlt
    rcases hstep.waitsOn_of h.inv.ideal hw with hw | he
    · exact mono (h.waits k j hw)
    · exact mono (h.below_of_blocked hq ha he)

end

/-! ### The end of the program -/

/-- **At the end all coroutines are done**: the `awaiting` links go down the order of the labels,
so they have no cycle. -/
theorem Good.all_done [DecidableEq L] [IsStrictOrder L r] (h : p.Good r N) (hcmd : p.cmd = none) :
    ∀ k t, p.s.taskAt k = some t → t.state = .done := by
  obtain ⟨hctl, -, hcalled⟩ := h.toSound.ended hcmd
  have hq : p.s.Quiet := ⟨h.inv, hctl, (h.returned hcalled).2 hctl⟩
  refine hq.all_done_iff.mpr fun ⟨a, ha, hcyc⟩ => ?_
  refine Support.not_onCycle (r := below r) (f := fun a => labelOf p.s.abs (p.s.idOf a))
    (P := fun a => p.s.live a = true) (fun a b ha hab => ⟨h.inv.target a b ha hab, ?_⟩) ha hcyc
  have hw : (p.s.mem a).state = .waiting :=
    (h.inv.waiting_iff ha).mpr (by rw [hab]; exact Option.some_ne_none b)
  have hab : (p.s.mem a).awaiting = some b := hab
  exact h.waits _ _ ⟨_, h.inv.task_live ha, hw, by simp [Coroutine.task, hab]⟩

/-- At the end every coroutine of the program has been created. -/
theorem Good.all_created [DecidableEq L] [IsStrictOrder L r] (h : p.Good r N)
    (hcmd : p.cmd = none) : p.s.all.length = N := by
  have hcode : ∀ k, p.code k = none := by
    intro k
    by_contra hn
    obtain ⟨t, ht, hd⟩ := (h.code k).mp hn
    exact hd (h.all_done hcmd k t ht)
  have hcount := h.count
  simpa [creates, total, hcode, (h.toSound.ended hcmd).2.1, Program.creates] using hcount

end PState

namespace Program

variable [DecidableEq L] {r : L → L → Prop} {prog : Program L} {alloc : ℕ → Addr × Addr}

/-- **Acyclic awaits always complete.**  If every `co_await` targets a coroutine that has been
created and whose label is smaller, main's `co_run` returns after finitely many steps, with every
coroutine of the program created and done, whatever addresses the allocator returns. -/
theorem acyclic_completes (r : L → L → Prop) [IsStrictOrder L r] (prog : Program L)
    (alloc : ℕ → Addr × Addr) (hr : prog.Ordered r) (hcount : prog.creates ≤ maxCoroutines)
    (hfree : ∀ n p f, prog.run alloc n = .ok p → p.cmd = some (.create f) →
      p.s.live (alloc n).1 = false)
    (hset : ∀ n p l, prog.run alloc n = .ok p → p.cmd = some (.await l) → p.env l ≠ none) :
    ∃ n p, prog.run alloc n = .ok p ∧ p.called = true ∧ p.s.ctl = .user none ∧
      p.s.all.length = prog.creates ∧
      ∀ k, 1 ≤ k → k ≤ prog.creates → ∃ t, p.s.taskAt k = some t ∧ t.state = .done := by
  obtain ⟨n, p, hp, hgood, hcmd⟩ := PState.run_ends (Q := fun _ p => p.Good r prog.creates)
    (fun _ _ h => h.toSound) (fun _ _ _ _ _ h hcmd ha hs => h.step (PState.next_of_cmd hcmd) hs ha)
    (PState.good_start hr hcount) hfree hset
  obtain ⟨hctl, -, hcalled⟩ := hgood.toSound.ended hcmd
  have hall := hgood.all_created hcmd
  refine ⟨_, p, hp, hcalled, hctl, hall, fun k h1 hk => ?_⟩
  obtain ⟨t, ht⟩ :=
    Option.ne_none_iff_exists'.mp ((hgood.inv.ideal.range k).mpr ⟨h1, hk.trans_eq hall.symm⟩)
  exact ⟨t, ht, hgood.all_done hcmd k t ht⟩

/-! ### A concrete program -/

/-- The next call finds its address unused and its handle set. -/
def callOk (p : PState L) (m : Addr × Addr) : Bool :=
  match p.cmd with
  | some (.create _) => !p.s.live m.1
  | some (.await l) => (p.env l).isSome
  | _ => true

/-- `p` holds of the program after `n` steps. -/
def holdsAt (prog : Program L) (alloc : ℕ → Addr × Addr) (p : PState L → Bool) (n : ℕ) : Bool :=
  match prog.run alloc n with
  | .ok q => p q
  | .error _ => false

/-- Calls are checked until the program has ended. -/
theorem callOk_of_ended {K : ℕ} (hend : holdsAt prog alloc (fun p => p.cmd.isNone) K = true)
    (hcheck : ∀ n < K, holdsAt prog alloc (fun p => callOk p (alloc n)) n = true) {n : ℕ}
    {p : PState L} (hp : prog.run alloc n = .ok p) : callOk p (alloc n) = true := by
  rcases Nat.lt_or_ge n K with hn | hn
  · simpa [holdsAt, hp] using hcheck n hn
  · -- a program that has ended stays as it is
    have stays : ∀ d, holdsAt prog alloc (fun p => p.cmd.isNone) (K + d) = true := by
      intro d
      induction d with
      | zero => exact hend
      | succ d ih =>
          cases hq : prog.run alloc (K + d) with
          | error e => simp [holdsAt, hq] at ih
          | ok q =>
              have hcmd : q.cmd = none := by simpa [holdsAt, hq] using ih
              have hnext : prog.run alloc (K + (d + 1)) = .ok q := by
                rw [run, ← Nat.add_assoc, PState.run, ← run, hq]
                simp [bind, Except.bind, PState.exec, hcmd]
              simp [holdsAt, hnext, hcmd]
    have hcmd := stays (n - K)
    rw [Nat.add_sub_cancel' hn, holdsAt, hp] at hcmd
    rw [callOk, Option.isNone_iff_eq_none.mp hcmd]

/-- The coroutine `2` awaits `0`, which yields, creates `3` and returns; `3` awaits `2`. -/
def chain : Program ℕ :=
  [⟨2, .await 0 .ret⟩, ⟨0, .yield (.create 3 (.await 2 .ret) .ret)⟩]

/-- The allocator never returns an address twice. -/
def bump (n : ℕ) : Addr × Addr := (2 * n, 2 * n + 1)

theorem acyclic_completes_chain : ∃ n p, chain.run bump n = .ok p ∧
    p.called = true ∧ p.s.ctl = .user none ∧ p.s.all.length = 3 ∧
    ∀ k, 1 ≤ k → k ≤ 3 → ∃ t, p.s.taskAt k = some t ∧ t.state = .done := by
  have hok : ∀ n p, chain.run bump n = .ok p → callOk p (bump n) = true :=
    fun n p => callOk_of_ended (K := 17) (by decide) (by decide)
  refine acyclic_completes (· < ·) chain bump (by simp [Ordered, chain, Code.Ordered]) (by decide)
    (fun n p f hp hc => ?_) fun n p l hp hc => ?_
  · simpa [callOk, hc] using hok n p hp
  · simpa [callOk, hc, Option.isSome_iff_ne_none] using hok n p hp

end Program

end CCoroutine
