import CCoroutine.Asm.Faithful
import CCoroutine.Backend.Builds

/-!
# Backend — Asm

The build with `USE_ASM_CTX`, on the machine of `Asm.Contexts`.  Its contexts are main's and those
of the coroutines; what is executed after a switch is where the machine has landed
(`World.Lands`).
-/

namespace CCoroutine.Asm
open Support (Word Memory Region)
open Support.X86 (Reg Machine)

/-- The machine, and where in the code of the scheduler each suspended context called
`co_ctx_switch`. -/
structure World where
  c : Config (Option Addr)
  point : Option Addr → Ctx

/-- The offset of `ctx` in `struct Coroutine`. -/
def ctxOffset : ℕ := 48

/-- The record of the coroutine at `co` and its stack of `n` bytes. -/
def Place.IsFor (p : Place) (co stack : Addr) (n : ℕ) : Prop :=
  p.record.toNat = co + ctxOffset ∧ p.stack.base = stack ∧ p.stack.size = n

/-- It lies at addresses of 64 bits. -/
theorem Place.IsFor.lt {p : Place} {co stack : Addr} {n : ℕ} (h : p.IsFor co stack n) :
    co < 2 ^ 64 := by
  have hlt : co + ctxOffset < 2 ^ 64 := h.1 ▸ p.record.isLt
  exact Nat.lt_of_add_right_lt hlt

/-- The machine is about to execute `k`: in a context that is new, `co_entry` with the coroutine in
`rdi`; in one that was suspended, what follows its call, with the registers it had there. -/
def World.Lands (img : Image) (w : World) (k : Ctx) : Prop :=
  match w.c.status w.c.cur with
  | .fresh _ => w.c.m.rip = img.coEntryAt ∧ k = .trampoline (w.c.m.reg .rdi).toNat
  | .suspended v => w.c.m.rip = v.ret ∧ (∀ r ∈ asmCtx, w.c.m.reg r = v.reg r) ∧
      k = w.point w.c.cur

/-- Each function of the API executes code of its own before it does anything to the contexts. -/
def backend (img : Image) : Backend World where
  user w w' := Move img w.c .user w'.c ∧ w'.point = w.point
  create w co stack n w' := ∃ c p, Move img w.c .user c ∧
    Move img c (.create (some co) (BitVec.ofNat 64 co)) w'.c ∧
    w'.c.layout.place (some co) = some p ∧ p.IsFor co stack n ∧ w'.point = w.point
  drop w co w' := ∃ c, Move img w.c .user c ∧ Move img c (.drop (some co)) w'.c ∧
    w'.point = w.point
  switch w src dst pt w' k := ∃ c, Move img w.c .user c ∧ c.cur = src ∧
    Move img c (.switch dst) w'.c ∧ w'.point = Function.update w.point src pt ∧ w'.Lands img k

variable {img : Image} {c c' : Config (Option Addr)} {w w' : World} {i t : Option Addr} {k : Ctx}

/-! ### What the contexts hold -/

/-- The context is there, and it is new or was suspended where the scheduler knows. -/
def World.Holds (w : World) (i : Option Addr) (k : Ctx) : Prop :=
  w.c.layout.place i ≠ none ∧
    ((∃ co, w.c.status i = .fresh co ∧ k = .trampoline co.toNat) ∨
      (∃ v, w.c.status i = .suspended v) ∧ w.point i = k)

/-- The contexts are intact, and every stack has room for a return address. -/
structure World.Good (img : Image) (w : World) : Prop where
  inv : Inv img w.c
  room : ∀ i p, w.c.layout.place i = some p → 8 ≤ p.stack.size

/-- There is memory for the record and the stack of a new context. -/
def World.Room (w : World) (co stack : Addr) (n : ℕ) : Prop :=
  w.c.layout.place (some co) = none ∧ ∃ p : Place, p.IsFor co stack n ∧ p.Fits ∧
    ∀ j q, j ≠ some co → w.c.layout.place j = some q → p.Apart q

theorem World.Holds.congr (h : w.Holds i k) (hp : w'.c.layout.place i = w.c.layout.place i)
    (hs : w'.c.status i = w.c.status i) (hpt : w'.point i = w.point i) : w'.Holds i k := by
  unfold World.Holds
  rw [hp, hs, hpt]
  exact h

theorem Place.Fits.le {p : Place} (h : p.Fits) : 8 ≤ p.stack.size := by
  obtain ⟨hlo, hhi⟩ := h.1
  omega

/-- Main executes, on a stack with room for a return address, and there is no other context. -/
structure World.Boots (w : World) : Prop where
  start : w.c.Start
  main : w.c.cur = none
  room : ∀ p, w.c.layout.place none = some p → 8 ≤ p.stack.size

theorem World.Boots.good (h : w.Boots) : w.Good img := by
  refine ⟨inv_of_start h.start, fun i p hp => ?_⟩
  obtain rfl : i = none := h.main ▸ (h.start i).mp (by simp [hp])
  exact h.room p hp

/-! ### One operation -/

/-- Code between two switches changes the machine and nothing else. -/
theorem Move.user_eq (h : Move img c .user c') :
    c'.cur = c.cur ∧ c'.layout = c.layout ∧ c'.status = c.status := by
  cases h
  exact ⟨rfl, rfl, rfl⟩

theorem Move.user_refl (img : Image) (c : Config (Option Addr)) : Move img c .user c :=
  .user (m := c.m) fun _ _ _ _ => ⟨fun _ _ => rfl, fun _ _ _ => rfl⟩

namespace World.Good

theorem user (h : w.Good img) (hm : Move img w.c .user c) :
    (⟨c, w.point⟩ : World).Good img ∧ c.cur = w.c.cur ∧
      ∀ i k, w.Holds i k → (⟨c, w.point⟩ : World).Holds i k := by
  obtain ⟨hcur, hlayout, hstatus⟩ := hm.user_eq
  refine ⟨⟨h.inv.move hm, fun i p hp => h.room i p (hlayout ▸ hp)⟩, hcur, fun i k hk => ?_⟩
  exact hk.congr (by rw [hlayout]) (by rw [hstatus]) rfl

theorem create (h : w.Good img) {co : Addr} (hco : co < 2 ^ 64)
    (hm : Move img w.c (.create (some co) (BitVec.ofNat 64 co)) c) :
    (⟨c, w.point⟩ : World).Good img ∧ c.cur = w.c.cur ∧
      (⟨c, w.point⟩ : World).Holds (some co) (.trampoline co) ∧
      ∀ i k, i ≠ some co → w.Holds i k → (⟨c, w.point⟩ : World).Holds i k := by
  have hinv := h.inv.move hm
  cases hm with
  | @create _ p _ hnone hp hfit =>
      refine ⟨⟨hinv, fun i q hq => ?_⟩, rfl, ⟨?_, .inl ⟨_, Function.update_self _ _ _, ?_⟩⟩,
        fun i k hi hk => ?_⟩
      · by_cases e : i = some co
        · subst e
          obtain rfl : p = q := Option.some.inj ((w.c.layout.place_add_self hp).symm.trans hq)
          exact hfit.le
        · exact h.room i q ((w.c.layout.place_add_of_ne hp e).symm.trans hq)
      · rw [w.c.layout.place_add_self hp]
        exact Option.some_ne_none p
      · rw [BitVec.toNat_ofNat, Nat.mod_eq_of_lt hco]
      · exact hk.congr (w.c.layout.place_add_of_ne hp hi) (Function.update_of_ne hi _ _) rfl

theorem drop (h : w.Good img) {co : Addr} (hm : Move img w.c (.drop (some co)) c) :
    (⟨c, w.point⟩ : World).Good img ∧ c.cur = w.c.cur ∧
      ∀ i k, i ≠ some co → w.Holds i k → (⟨c, w.point⟩ : World).Holds i k := by
  have hinv := h.inv.move hm
  cases hm with
  | drop hne =>
      refine ⟨⟨hinv, fun i p hp => ?_⟩, rfl, fun i k hi hk => ?_⟩
      · exact h.room i p (Layout.place_of_remove hp)
      · exact hk.congr (w.c.layout.place_remove_of_ne hi) rfl rfl

/-- **A switch lands where its target is to go on.** -/
theorem switch (pt : Ctx) (h : w.Good img) (hne : t ≠ w.c.cur) (hk : w.Holds t k)
    (hm : Move img w.c (.switch t) c) (hw : w' = ⟨c, Function.update w.point w.c.cur pt⟩) :
    (∀ j, w'.Lands img j ↔ j = k) ∧ w'.Good img ∧ w'.c.cur = t ∧ w'.Holds w.c.cur pt ∧
      ∀ i j, i ≠ w.c.cur → w.Holds i j → w'.Holds i j := by
  subst hw
  have hinv := h.inv.move hm
  cases hm with
  | @switch _ p q next m hcall hrun =>
      obtain ⟨m', hrun', -, hsusp, hfresh⟩ := h.inv.run_switch hcall
      obtain rfl : m = m' := Option.some.inj (hrun.symm.trans hrun')
      have hstatus : ∀ {i}, i ≠ w.c.cur → w.c.suspend next i = w.c.status i :=
        fun hi => Function.update_of_ne hi _ _
      have hpoint : ∀ {i}, i ≠ w.c.cur → Function.update w.point w.c.cur pt i = w.point i :=
        fun hi => Function.update_of_ne hi _ _
      refine ⟨fun j => ?_, ⟨hinv, h.room⟩, rfl, ⟨?_, .inr ⟨⟨_, Function.update_self _ _ _⟩, ?_⟩⟩,
        fun i j hi hj => hj.congr rfl (hstatus hi) (hpoint hi)⟩
      · obtain ⟨-, ⟨co, hco, rfl⟩ | ⟨⟨v, hv⟩, rfl⟩⟩ := hk
        · obtain ⟨hrip, hrdi, -⟩ := hfresh co ((hstatus hne).trans hco)
          simp [Lands, hstatus hne, hco, hrip, hrdi]
        · obtain ⟨hrip, hreg⟩ := hsusp v ((hstatus hne).trans hv)
          simp only [Lands, hstatus hne, hv, hrip, hpoint hne, true_and]
          exact and_iff_right hreg
      · rw [hcall.source]
        exact Option.some_ne_none p
      · exact Function.update_self _ _ _

end World.Good

/-- **The switch of the asm build is lawful.** -/
def view (img : Image) : (backend img).View where
  good := World.Good img
  cur w := w.c.cur
  holds := World.Holds
  room := World.Room
  user_keeps := by
    rintro w ⟨c', _⟩ h ⟨hm, rfl⟩
    obtain ⟨hgood, hcur, hholds⟩ := h.user hm
    exact ⟨hgood, hcur, fun i k _ => hholds i k⟩
  create_keeps := by
    rintro w ⟨c', _⟩ co stack n h ⟨c, p, hu, hm, -, hfor, rfl⟩
    obtain ⟨hgood, hcur, hholds⟩ := h.user hu
    obtain ⟨hgood', hcur', hnew, hholds'⟩ := hgood.create hfor.lt hm
    exact ⟨hgood', hcur'.trans hcur, hnew, fun i k _ hi hk => hholds' i k hi (hholds i k hk)⟩
  drop_keeps := by
    rintro w ⟨c', _⟩ co h ⟨c, hu, hm, rfl⟩
    obtain ⟨hgood, hcur, hholds⟩ := h.user hu
    obtain ⟨hgood', hcur', hholds'⟩ := hgood.drop hm
    exact ⟨hgood', hcur'.trans hcur, fun i k _ hi hk => hholds' i k hi (hholds i k hk)⟩
  switch_leads := by
    rintro w ⟨c', _⟩ t pt k k' h hne hk ⟨c, hu, -, hm, rfl, hlands⟩
    obtain ⟨hgood, hcur, hholds⟩ := h.user hu
    rw [← hcur] at hne hlands ⊢
    obtain ⟨hiff, hgood', hcur', hsrc, hholds'⟩ := hgood.switch pt hne (hholds t k hk) hm rfl
    refine ⟨(hiff k').mp hlands, hgood', hcur', hsrc, fun i j hi _ hj => ?_⟩
    exact hholds' i j hi (hholds i j hj)

/-! ### Nothing is in the way -/

/-- The code has a call of `co_ctx_switch`. -/
def Image.Calls (img : Image) : Prop :=
  ∃ a next, img.code a = some (.call img.coCtxSwitchAt, next)

/-- The code that executes can come to a call of `co_ctx_switch` with the record of `t`. -/
theorem World.Good.exists_switch (h : w.Good img) (hcalls : img.Calls)
    (ht : w.c.layout.place t ≠ none) :
    ∃ c c', Move img w.c .user c ∧ Move img c (.switch t) c' := by
  obtain ⟨p, hp⟩ := h.inv.exists_cur
  obtain ⟨q, hq⟩ := Option.ne_none_iff_exists'.mp ht
  obtain ⟨a, next, hcall⟩ := hcalls
  -- a stack pointer with a word below it
  let sp : Word := BitVec.ofNat 64 p.stack.base + 8
  let reg := Function.update (Function.update (Function.update w.c.m.reg .rdi p.record) .rsi
    q.record) .rsp sp
  let c : Config (Option Addr) := { w.c with m := { w.c.m with rip := a, reg := reg } }
  have huser : Move img w.c .user c := .user fun _ _ _ _ => ⟨fun _ _ => rfl, fun _ _ _ => rfl⟩
  have hroom : p.stack.HasWord (sp - 8) := by
    have hsize := h.room _ p hp
    have hle := p.stack.le
    have hsub : sp - 8 = BitVec.ofNat 64 p.stack.base := add_sub_cancel_right _ _
    have hbase : (BitVec.ofNat 64 p.stack.base).toNat = p.stack.base := by
      rw [BitVec.toNat_ofNat]
      omega
    rw [Region.HasWord, hsub, hbase]
    omega
  have hsite : c.CallSite img t p q next := {
    source := hp
    target := hq
    call := hcall
    rdi := by simp [c, reg]
    rsi := by simp [c, reg]
    room := by simpa [c, reg] using hroom }
  obtain ⟨m, hrun, -⟩ := (h.inv.move huser).run_switch hsite
  exact ⟨c, _, huser, .switch hsite hrun⟩

theorem view_live (hcalls : img.Calls) : (view img).Live where
  exists_user {w} _ := ⟨w, Move.user_refl img w.c, rfl⟩
  exists_create := by
    rintro w co stack n - ⟨hnone, p, hfor, hfit, hp⟩
    refine ⟨⟨_, w.point⟩, w.c, p, Move.user_refl img w.c, .create _ hnone hp hfit, ?_, hfor, rfl⟩
    exact w.c.layout.place_add_self hp
  exists_drop {w co} _ hne := ⟨⟨_, w.point⟩, w.c, Move.user_refl img w.c, .drop hne, rfl⟩
  exists_switch := by
    rintro w t k pt h hne hk
    obtain ⟨c, c', hu, hm⟩ := h.exists_switch hcalls hk.1
    obtain ⟨hgood, hcur, hholds⟩ := h.user hu
    rw [show (view img).cur w = c.cur from hcur.symm] at hne ⊢
    obtain ⟨hiff, -⟩ := hgood.switch pt hne (hholds t k hk) hm rfl
    exact ⟨_, k, c, hu, rfl, hm, rfl, (hiff k).mpr rfl⟩

end CCoroutine.Asm
