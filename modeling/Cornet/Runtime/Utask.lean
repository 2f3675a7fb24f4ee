import Cornet.Runtime.IoSlotRuns

/-!
# Runtime/Utask — one operation, one slot, one completion

    construct ─▸ move* ─▸ prepare_into ─┬─▸ CQE ─▸ complete ─▸ resume
                  (alloc, user_io_ + 1) └─▸ ~utask_t              (free, user_io_ − 1, either way)

A `utask_t` holds a slot of the table from `prepare_into` until its completion arrives or it is
destroyed.  The kernel may answer at any time, also when nobody is left to hear it: the token then
finds nothing.  What tasks do to the table is a history of tokens (`State.io`), so the accounts are
right as long as the tokens are, and wrong as soon as one is 0.
-/

namespace Cornet.Tasks

open List Function

variable {τ γ : Type*} [DecidableEq τ]

/-! ## The code -/

/-- `utask_t`, without the function that fills the SQE; `ctx` says whether its pointer is set. -/
structure Utask (γ : Type*) where
  completed : Bool := false
  userWork : Bool := true
  userIoCounted : Bool := false
  value : ℤ := 0
  handle : Option γ := none
  ctx : Bool := true
  slotData : ℕ := 0
  deriving DecidableEq, Repr

/-- What tasks share: the slot table, the tracker's `user_io_`, the task objects that exist, and the
tasks handed to `spawn`.  The tokens taken from and given back to the table are logged. -/
structure Ctx (τ γ : Type*) where
  slots : IoSlot.Table τ
  userIo : ℕ := 0
  tasks : τ → Option (Utask γ) := fun _ => none
  ready : List τ := []
  allocated : List ℕ := []
  freed : List ℕ := []

def Ctx.setTask (c : Ctx τ γ) (x : τ) (o : Option (Utask γ)) : Ctx τ γ :=
  { c with tasks := Function.update c.tasks x o }

/-- `task_tracker_t::user_io_add`. -/
def Ctx.userIoAdd (c : Ctx τ γ) : Ctx τ γ := { c with userIo := (c.userIo + 1) % 2 ^ 32 }

/-- `task_tracker_t::user_io_remove`. -/
def Ctx.userIoRemove (c : Ctx τ γ) : Ctx τ γ :=
  { c with userIo := (c.userIo + (2 ^ 32 - 1)) % 2 ^ 32 }

def Ctx.free (c : Ctx τ γ) (token : ℕ) : Option (Ctx τ γ) :=
  (c.slots.free token).map fun t => { c with slots := t, freed := token :: c.freed }

/-- `~utask_t`. -/
def Ctx.destroy (c : Ctx τ γ) (x : τ) (u : Utask γ) : Option (Ctx τ γ) :=
  let c := if u.userIoCounted && u.ctx then c.userIoRemove else c
  (if u.slotData ≠ 0 && u.ctx then c.free u.slotData else some c).map (·.setTask x none)

/-- The move constructor: `y` is built from `x`. -/
def Ctx.move (c : Ctx τ γ) (x y : τ) (u : Utask γ) : Ctx τ γ :=
  (c.setTask y (some u)).setTask x
    (some { u with userIoCounted := false, ctx := false, slotData := 0 })

/-- `none` where the context pointer is null, or the table reads outside its vectors. -/
def Ctx.prepareInto (c : Ctx τ γ) (x : τ) (u : Utask γ) : Option (Ctx τ γ) :=
  if u.ctx then
    (c.slots.alloc x).map fun r =>
      let c := { c with slots := r.2, allocated := r.1 :: c.allocated }
      let u := { u with slotData := r.1 }
      if u.userWork && !u.userIoCounted then
        c.userIoAdd.setTask x (some { u with userIoCounted := true })
      else c.setTask x (some u)
  else none

/-- `complete`, with `handle.done()` as the argument `done`. -/
def Ctx.complete (c : Ctx τ γ) (x : τ) (u : Utask γ) (res : ℤ) (done : Bool) : Option (Ctx τ γ) :=
  let c := if u.userIoCounted then c.userIoRemove else c
  (c.free u.slotData).map fun c =>
    let c := c.setTask x
      (some { u with userIoCounted := false, slotData := 0, value := res, completed := true })
    if u.handle.isSome && !done then { c with ready := x :: c.ready } else c

/-- `none` where the task the table names has been destroyed. -/
def Ctx.processUtask (c : Ctx τ γ) (data : ℕ) (res : ℤ) (done : Bool) : Option (Ctx τ γ) :=
  if data = 0 then some c
  else (c.slots.lookup data).elim (some c) fun x => (c.tasks x).bind fun u =>
    c.complete x u res done

/-! ## The system -/

/-- One call of `prepare_into`: the task, the token its SQE carries, and whose work it is. -/
structure Arming (τ : Type*) where
  serial : ℕ
  task : τ
  token : ℕ
  user : Bool
  deriving DecidableEq, Repr

/-- The armings whose task still waits for its completion, and those that are over: the completion
has been delivered, or the task destroyed. -/
structure State (τ γ : Type*) where
  ctx : Ctx τ γ
  pending : List (Arming τ) := []
  past : List (Arming τ) := []
  broken : Bool := false

inductive Act (τ γ : Type*)
  | construct (x : τ)
  | markSystem (x : τ)
  | move (x y : τ)
  /-- an awaiter stores the coroutine it suspends -/
  | suspend (x : τ) (h : γ)
  /-- the ring has no SQE left -/
  | fail (x : τ) (err : ℕ)
  | prepare (x : τ)
  /-- the CQE of an arming arrives, for the first time or again -/
  | cqe (a : Arming τ) (res : ℤ) (done : Bool)
  | nullCqe (res : ℤ)
  | destroy (x : τ)

/-- The result of a call: undefined behaviour breaks the system for good. -/
def State.after (s : State τ γ) (o : Option (Ctx τ γ)) (f : Ctx τ γ → State τ γ) : State τ γ :=
  o.elim { s with broken := true } f

def State.touch (s : State τ γ) (x : τ) (f : Utask γ → Utask γ) : Option (State τ γ) :=
  (s.ctx.tasks x).map fun u => { s with ctx := s.ctx.setTask x (some (f u)) }

/-- `utask_t::await_suspend`. -/
def State.prepare (s : State τ γ) (x : τ) (u : Utask γ) : State τ γ :=
  s.after (s.ctx.prepareInto x u) fun c =>
    { s with ctx := c, pending := ⟨c.allocated.length, x, c.allocated.headD 0,
             u.userWork⟩ :: s.pending }

def State.deliver (s : State τ γ) (a : Arming τ) (res : ℤ) (done : Bool) : State τ γ :=
  s.after (s.ctx.processUtask a.token res done) fun c =>
    { s with ctx := c, pending := s.pending.filter (· ≠ a), past := a :: s.past }

def State.destroy (s : State τ γ) (x : τ) (u : Utask γ) : State τ γ :=
  s.after (s.ctx.destroy x u) fun c =>
    { s with
      ctx := c
      pending := s.pending.filter (·.task ≠ x)
      past := s.pending.filter (·.task = x) ++ s.past }

/-- A task is moved only while it is not armed, and armed only if it has its context and is not:
nobody awaits an operation twice. -/
def step (s : State τ γ) : Act τ γ → Option (State τ γ)
  | .construct x =>
    if s.ctx.tasks x = none then some { s with ctx := s.ctx.setTask x (some {}) } else none
  | .markSystem x => s.touch x fun u => { u with userWork := false }
  | .move x y =>
    (s.ctx.tasks x).bind fun u =>
      if s.ctx.tasks y = none ∧ u.slotData = 0 then some { s with ctx := s.ctx.move x y u }
        else none
  | .suspend x h => s.touch x fun u => { u with handle := some h }
  | .fail x err => s.touch x fun u => { u with value := -err, completed := true }
  | .prepare x =>
    (s.ctx.tasks x).bind fun u =>
      if u.ctx = true ∧ u.slotData = 0 then some (s.prepare x u) else none
  | .cqe a res done => if a ∈ s.pending ∨ a ∈ s.past then some (s.deliver a res done) else none
  | .nullCqe res => some (s.after (s.ctx.processUtask 0 res false) fun c => { s with ctx := c })
  | .destroy x => (s.ctx.tasks x).map fun u => s.destroy x u

def State.make (capacity : ℕ) : State τ γ where
  ctx := { slots := .make capacity }

/-- The accounts agree: `user_io_` counts the user's armed tasks, a token is freed once and not
before its arming is over, the CQE of a pending arming completes its task, and any other changes
nothing. -/
structure State.Sound (s : State τ γ) : Prop where
  intact : s.broken = false
  userIo : s.ctx.userIo = s.pending.countP (·.user)
  slots : s.ctx.allocated.Perm (s.ctx.freed ++ s.pending.map Arming.token)
  once : s.ctx.allocated.Nodup
  own : ∀ a ∈ s.pending, ∃ u, s.ctx.tasks a.task = some u ∧ u.slotData = a.token ∧
    ∀ res done, s.ctx.processUtask a.token res done = s.ctx.complete a.task u res done
  stale : ∀ a ∈ s.past, ∀ res done, s.ctx.processUtask a.token res done = some s.ctx

/-- What the tasks do to the slot table: the tokens out, those that came back, and how often each
slot did. -/
def State.io (s : State τ γ) : IoSlot.State τ where
  table := s.ctx.slots
  live := s.pending.map fun a => (a.token, a.task)
  freed := s.ctx.freed
  returns i := s.ctx.freed.countP (IoSlot.decodeSlotIndex · = i)

/-- The slot `prepare_into` takes is reused fewer than 2³² times, slot 0 one less, and a full table
has fewer than 2³¹ slots. -/
def Armable (s : State τ γ) : Act τ γ → Prop
  | .prepare x => IoSlot.Sparing s.io (.alloc x) ∧ IoSlot.Narrow s.io (.alloc x)
  | _ => True

instance (s : State τ γ) : (a : Act τ γ) → Decidable (Armable s a)
  | .prepare _ => inferInstanceAs (Decidable (_ ∧ _))
  | .construct _ | .markSystem _ | .move _ _ | .suspend _ _ | .fail _ _ | .cqe _ _ _ | .nullCqe _ |
    .destroy _ =>
    inferInstanceAs (Decidable True)

/-! ## The invariant -/

/-- A task whose flags say that it is idle. -/
def Utask.Idle (u : Utask γ) : Prop := u.slotData = 0 ∧ u.userIoCounted = false

/-- The task of an arming, as `prepare_into` left it. -/
structure Holds (c : Ctx τ γ) (a : Arming τ) (u : Utask γ) : Prop where
  task : c.tasks a.task = some u
  slotData : u.slotData = a.token
  ctx : u.ctx = true
  counted : u.userIoCounted = a.user

structure Inv (s : State τ γ) : Prop where
  intact : s.broken = false
  io : IoSlot.Inv s.io
  userIo : s.ctx.userIo = s.pending.countP (·.user) % 2 ^ 32
  slots : s.ctx.allocated.Perm (s.ctx.freed ++ s.pending.map Arming.token)
  once : s.ctx.allocated.Nodup
  token_lt : ∀ {tok}, tok ∈ s.ctx.allocated → tok < 2 ^ 64
  token_ne : ∀ {tok}, tok ∈ s.ctx.allocated → tok ≠ 0
  holds : ∀ {a}, a ∈ s.pending → ∃ u, Holds s.ctx a u
  live : ∀ {a}, a ∈ s.pending → s.ctx.slots.lookup a.token = some a.task
  idle : ∀ {x u}, s.ctx.tasks x = some u → (∀ a ∈ s.pending, a.task ≠ x) → u.Idle
  dead : ∀ {tok}, tok ∈ s.ctx.freed → s.ctx.slots.lookup tok = none
  past : ∀ {a}, a ∈ s.past → a.token ∈ s.ctx.freed

variable {s t : State τ γ} {x y : τ} {u u' : Utask γ} {a b : Arming τ}

section

omit [DecidableEq τ]

theorem inv_make {capacity : ℕ} (h₀ : 0 < capacity) (hc : capacity < 2 ^ 32) : Inv
    (State.make capacity : State τ γ) where
  intact := rfl
  io := IoSlot.inv_make h₀ hc
  userIo := rfl
  slots := List.Perm.refl _
  once := nodup_nil
  token_lt htok := absurd htok not_mem_nil
  token_ne htok := absurd htok not_mem_nil
  holds ha := absurd ha not_mem_nil
  live ha := absurd ha not_mem_nil
  idle := by
    rintro x u ⟨⟩
  dead htok := absurd htok not_mem_nil
  past ha := absurd ha not_mem_nil

theorem Inv.ok (h : Inv s) : s.ctx.slots.Ok := h.io.ok

theorem Inv.tokens_nodup (h : Inv s) : (s.ctx.freed ++ s.pending.map Arming.token).Nodup :=
  h.slots.nodup_iff.mp h.once

theorem Inv.token_mem (h : Inv s) (ha : a ∈ s.pending) : a.token ∈ s.ctx.allocated :=
  h.slots.mem_iff.mpr (mem_append_right _ (mem_map_of_mem ha))

theorem Inv.freed_mem (h : Inv s) {tok : ℕ} (htok : tok ∈ s.ctx.freed) : tok ∈ s.ctx.allocated :=
  h.slots.mem_iff.mpr (mem_append_left _ htok)

theorem Inv.eq_of_token (h : Inv s) (ha : a ∈ s.pending) (hb : b ∈ s.pending)
    (he : a.token = b.token) : a = b :=
  inj_on_of_nodup_map (nodup_append'.mp h.tokens_nodup).2.1 ha hb he

/-- A task is armed once at a time. -/
theorem Inv.eq_of_task (h : Inv s) (ha : a ∈ s.pending) (hb : b ∈ s.pending)
    (he : a.task = b.task) : a = b := by
  obtain ⟨u, hu⟩ := h.holds ha
  obtain ⟨v, hv⟩ := h.holds hb
  have huv : u = v := Option.some.inj (hu.task.symm.trans (he ▸ hv.task))
  exact h.eq_of_token ha hb (by rw [← hu.slotData, huv, hv.slotData])

theorem Inv.length_lt (h : Inv s) : s.pending.length < 2 ^ 32 := by
  have hle := h.ok.length_le (nodup_append'.mp h.tokens_nodup).2.1 fun ud hud => by
    obtain ⟨a, ha, rfl⟩ := mem_map.mp hud
    exact ⟨h.token_lt (h.token_mem ha), a.task, h.live ha⟩
  rw [length_map] at hle
  exact hle.trans_lt h.ok.lt

theorem Inv.not_pending_of_none (h : Inv s) (hx : s.ctx.tasks x = none) : ∀ a ∈ s.pending,
    a.task ≠ x := by
  rintro a ha rfl
  obtain ⟨u, hu⟩ := h.holds ha
  cases hx.symm.trans hu.task

theorem Inv.not_pending_of_slotData (h : Inv s) (hx : s.ctx.tasks x = some u)
    (hslot : u.slotData = 0) :
    ∀ a ∈ s.pending, a.task ≠ x := by
  rintro a ha rfl
  obtain ⟨v, hv⟩ := h.holds ha
  obtain rfl : u = v := Option.some.inj (hx.symm.trans hv.task)
  exact h.token_ne (h.token_mem ha) (hv.slotData.symm.trans hslot)

theorem Inv.exists_free (h : Inv s) (ha : a ∈ s.pending) : ∃ t',
    s.ctx.slots.free a.token = some t' := by
  obtain ⟨t', hfree, -⟩ := h.ok.lookup_free (h.token_lt (h.token_mem ha)) (h.live ha)
  exact ⟨t', hfree⟩

/-- The slot and the count that a task of the user or of the framework gives back. -/
theorem free_uncount {c : Ctx τ γ} {t' : IoSlot.Table τ} {tok : ℕ} {user : Bool}
    (hfree : c.slots.free tok = some t') :
    (if user then c.userIoRemove else c).free tok = some
      { c with
        slots := t'
        freed := tok :: c.freed
        userIo := if user then (c.userIo + (2 ^ 32 - 1)) % 2 ^ 32 else c.userIo } := by
  cases user <;> simp [Ctx.free, Ctx.userIoRemove, hfree]

end

/-- A token the table does not know changes nothing. -/
theorem processUtask_of_none {c : Ctx τ γ} {tok : ℕ} (h : c.slots.lookup tok = none) (res : ℤ)
    (done : Bool) :
    c.processUtask tok res done = some c := by
  rw [Ctx.processUtask, h, Option.elim_none, ite_self]

theorem Inv.processUtask_eq (h : Inv s) (ha : a ∈ s.pending) (hu : Holds s.ctx a u) (res : ℤ)
    (done : Bool) :
    s.ctx.processUtask a.token res done = s.ctx.complete a.task u res done := by
  rw [Ctx.processUtask, if_neg (h.token_ne (h.token_mem ha)), h.live ha, Option.elim_some, hu.task,
    Option.bind_some]

theorem Inv.sound (h : Inv s) : s.Sound where
  intact := h.intact
  userIo := by
    rw [h.userIo, Nat.mod_eq_of_lt (countP_le_length.trans_lt h.length_lt)]
  slots := h.slots
  once := h.once
  own a ha := by
    obtain ⟨u, hu⟩ := h.holds ha
    exact ⟨u, hu.task, hu.slotData, h.processUtask_eq ha hu⟩
  stale a ha := processUtask_of_none (h.dead (h.past ha))

/-! ## What a step keeps -/

theorem setTask_tasks_self (c : Ctx τ γ) (x : τ) (o : Option (Utask γ)) : (c.setTask x o).tasks
    x = o :=
  update_self ..

theorem setTask_tasks_of_ne {c : Ctx τ γ} {o : Option (Utask γ)} (h : y ≠ x) : (c.setTask x o).tasks
    y = c.tasks y :=
  update_of_ne h ..

/-- The task objects change, and no armed one loses what its arming gave it. -/
theorem Inv.setTask {o : Option (Utask γ)} (h : Inv s)
    (harmed : ∀ {a}, a ∈ s.pending → a.task = x → ∃ u, Holds (s.ctx.setTask x o) a u)
    (hidle : ∀ {u}, o = some u → (∀ a ∈ s.pending, a.task ≠ x) → u.Idle) :
    Inv { s with ctx := s.ctx.setTask x o } where
  __ := h
  holds {a} ha := by
    by_cases hax : a.task = x
    · exact harmed ha hax
    · obtain ⟨u, hu⟩ := h.holds ha
      exact ⟨u, (setTask_tasks_of_ne hax).trans hu.task, hu.slotData, hu.ctx, hu.counted⟩
  idle {y u} hy hnone := by
    by_cases hyx : y = x
    · subst hyx
      exact hidle ((setTask_tasks_self s.ctx y o).symm.trans hy) hnone
    · exact h.idle ((setTask_tasks_of_ne hyx).symm.trans hy) hnone

/-- An object that no arming is about is replaced by one that is not armed. -/
theorem Inv.replace {o : Option (Utask γ)} (h : Inv s) (hx : ∀ a ∈ s.pending, a.task ≠ x)
    (ho : ∀ {u}, o = some u → u.Idle) : Inv { s with ctx := s.ctx.setTask x o } :=
  h.setTask (fun ha hax => absurd hax (hx _ ha)) fun hu _ => ho hu

/-- A field of a task changes that no account is kept in. -/
theorem Inv.touch {f : Utask γ → Utask γ} (h : Inv s) (hst : s.touch x f = some t)
    (hslot : ∀ u, (f u).slotData = u.slotData) (hctx : ∀ u, (f u).ctx = u.ctx)
    (hcount : ∀ u, (f u).userIoCounted = u.userIoCounted) : Inv t := by
  obtain ⟨u, hu, rfl⟩ := Option.map_eq_some_iff.mp hst
  refine h.setTask (fun {a} ha hax => ?_) fun hfu hnone => ?_
  · obtain ⟨v, hv⟩ := h.holds ha
    obtain rfl : u = v := Option.some.inj (hu.symm.trans (hax ▸ hv.task))
    refine ⟨f u, ?_, (hslot u).trans hv.slotData, (hctx u).trans hv.ctx,
      (hcount u).trans hv.counted⟩
    rw [hax, setTask_tasks_self]
  · obtain rfl := Option.some.inj hfu
    have hidle := h.idle hu hnone
    exact ⟨(hslot u).trans hidle.1, (hcount u).trans hidle.2⟩

theorem Inv.move (h : Inv s) (hx : s.ctx.tasks x = some u) (hy : s.ctx.tasks y = none)
    (hslot : u.slotData = 0) :
    Inv { s with ctx := s.ctx.move x y u } := by
  have hnx := h.not_pending_of_slotData hx hslot
  have hy' : Inv { s with ctx := s.ctx.setTask y (some u) } :=
    h.replace (h.not_pending_of_none hy) fun hu => Option.some.inj hu ▸ h.idle hx hnx
  refine hy'.replace hnx fun hu => ?_
  obtain rfl := Option.some.inj hu
  exact ⟨rfl, rfl⟩

/-- What `prepare_into` leaves of a task that was not armed. -/
theorem prepareInto_eq {c : Ctx τ γ} {tok : ℕ} {t' : IoSlot.Table τ} (hctx : u.ctx = true)
    (hcount : u.userIoCounted = false)
    (halloc : c.slots.alloc x = some (tok, t')) :
    c.prepareInto x u = some
      { c with
        slots := t'
        allocated := tok :: c.allocated
        userIo := if u.userWork then (c.userIo + 1) % 2 ^ 32 else c.userIo
        tasks := Function.update c.tasks x
          (some { u with slotData := tok, userIoCounted := u.userWork }) } := by
  rw [Ctx.prepareInto, if_pos hctx, halloc, Option.map_some]
  cases u.userWork <;> simp [hcount, Ctx.setTask, Ctx.userIoAdd]

omit [DecidableEq τ] in
/-- A token that is issued is not 0, and is new. -/
theorem Inv.token_new {tok : ℕ} {t' : IoSlot.Table τ} (h : Inv s) (hok : Armable s (.prepare x))
    (halloc : s.ctx.slots.alloc x = some (tok, t')) (hlookup : t'.lookup tok = some x) :
    IoSlot.Inv { s.io with table := t', live := (tok, x) :: s.io.live } ∧ tok ≠ 0 ∧
      tok ∉ s.ctx.allocated := by
  have hio : s.io.alloc x = { s.io with table := t', live := (tok, x) :: s.io.live } := by
    rw [IoSlot.State.alloc, State.io, halloc, Option.elim_some]
  have hinv := hio ▸ h.io.alloc hok.1 hok.2
  refine ⟨hinv, hinv.ne_zero mem_cons_self, fun hmem => ?_⟩
  rcases mem_append.mp (h.slots.mem_iff.mp hmem) with hfreed | hlive
  · exact Option.some_ne_none _ (hlookup.symm.trans (hinv.stale hfreed))
  · refine (nodup_cons.mp hinv.nodup).1 ?_
    rwa [State.io, map_map]

/-- **Arming**: the slot is new, and so is its token. -/
theorem Inv.prepare (h : Inv s) (hx : s.ctx.tasks x = some u) (hctx : u.ctx = true)
    (hslot : u.slotData = 0) (hok : Armable s (.prepare x)) : Inv (s.prepare x u) := by
  obtain ⟨tok, t', halloc, htab, hlt, hlookup⟩ := h.ok.lookup_alloc hok.2.1 x
  obtain ⟨hio, hne, hnew⟩ := h.token_new hok halloc ((hlookup _ hlt).trans (if_pos rfl))
  have hnone := h.not_pending_of_slotData hx hslot
  have hold : ∀ {tok'}, tok' ∈ s.ctx.allocated → t'.lookup tok' = s.ctx.slots.lookup tok' := by
    intro tok' htok'
    have hne' : tok' ≠ tok := fun he => hnew (he ▸ htok')
    rw [hlookup _ (h.token_lt htok'), if_neg hne']
  rw [State.prepare, prepareInto_eq hctx (h.idle hx hnone).2 halloc, State.after, Option.elim_some,
    headD_cons]
  refine ⟨h.intact, hio, ?_, ?_, nodup_cons.mpr ⟨hnew, h.once⟩, ?_, ?_, ?_, ?_, ?_, ?_, h.past⟩
  · rw [countP_cons]
    simp only [h.userIo]
    split_ifs <;> omega
  · exact (h.slots.cons tok).trans perm_middle.symm
  · exact fun hmem => (mem_cons.mp hmem).elim (fun he => he ▸ hlt) h.token_lt
  · exact fun hmem => (mem_cons.mp hmem).elim (fun he => he ▸ hne) h.token_ne
  · intro a ha
    rcases mem_cons.mp ha with rfl | ha
    · exact ⟨_, update_self .., rfl, hctx, rfl⟩
    · obtain ⟨v, hv⟩ := h.holds ha
      exact ⟨v, (update_of_ne (hnone a ha) ..).trans hv.task, hv.slotData, hv.ctx, hv.counted⟩
  · intro a ha
    rcases mem_cons.mp ha with rfl | ha
    · exact (hlookup _ hlt).trans (if_pos rfl)
    · exact (hold (h.token_mem ha)).trans (h.live ha)
  · intro y v hy hnone'
    have hyx : y ≠ x := fun he => hnone' _ mem_cons_self he.symm
    exact h.idle ((update_of_ne hyx ..).symm.trans hy) fun a ha => hnone' a (mem_cons_of_mem _ ha)
  · exact fun hmem => (hold (h.freed_mem hmem)).trans (h.dead hmem)

/-! ### The end of an arming -/

theorem Inv.perm_filter (h : Inv s) (ha : a ∈ s.pending) : s.pending.Perm
    (a :: s.pending.filter (· ≠ a)) := by
  have hnodup : s.pending.Nodup := (nodup_append'.mp h.tokens_nodup).2.1.of_map _
  have herase : s.pending.filter (· ≠ a) = s.pending.erase a := by
    rw [hnodup.erase_eq_filter]
    exact filter_congr fun b _ => by by_cases hba : b = a <;> simp [hba]
  rw [herase]
  exact perm_cons_erase ha

omit [DecidableEq τ] in
/-- The history of tokens when one comes back. -/
theorem Inv.io_free [DecidableEq (Arming τ)] {t' : IoSlot.Table τ} (h : Inv s) (ha : a ∈ s.pending)
    (hfree : s.ctx.slots.free a.token = some t') :
    IoSlot.Inv { table := t', live := (s.pending.filter (· ≠ a)).map fun a => (a.token, a.task),
                 freed := a.token :: s.ctx.freed, returns := fun i =>
                   (a.token :: s.ctx.freed).countP (IoSlot.decodeSlotIndex · = i) } := by
  have hlive : (a.token, a.task) ∈ s.io.live := mem_map_of_mem ha
  have hio := h.io.free hlive
  rw [IoSlot.State.free, State.io, hfree, Option.elim_some] at hio
  convert hio using 2
  · rw [filter_map]
    refine congrArg _ (filter_congr fun b hb => decide_eq_decide.mpr (not_congr ⟨?_, ?_⟩))
    · exact fun hba => congrArg Arming.token hba
    · exact fun he => h.eq_of_token hb ha he
  · funext i
    rw [countP_cons, update_apply]
    by_cases hi : i = IoSlot.decodeSlotIndex a.token
    · simp [hi]
    · simp [hi, Ne.symm hi]

/-- **The end of an arming**, whoever brings it about: the slot goes back, the count goes down, and
what is left of the task is not armed. -/
theorem Inv.resolve {c : Ctx τ γ} {o : Option (Utask γ)} {past : List (Arming τ)} (h : Inv s)
    (ha : a ∈ s.pending)
    (hfree : s.ctx.slots.free a.token = some c.slots) (hfreed : c.freed = a.token :: s.ctx.freed)
    (halloc : c.allocated = s.ctx.allocated)
      (htasks : c.tasks = Function.update s.ctx.tasks a.task o)
    (hio : c.userIo = if a.user then (s.ctx.userIo + (2 ^ 32 - 1)) % 2 ^ 32 else s.ctx.userIo)
    (ho : ∀ {u}, o = some u → u.Idle) (hpast : ∀ {b}, b ∈ past → b = a ∨ b ∈ s.past) :
    Inv { s with ctx := c, pending := s.pending.filter (· ≠ a), past := past } := by
  obtain ⟨t', hfree', htab, hlookup⟩ := h.ok.lookup_free (h.token_lt (h.token_mem ha)) (h.live ha)
  obtain rfl : c.slots = t' := Option.some.inj (hfree.symm.trans hfree')
  have hperm := h.perm_filter ha
  have hrest : ∀ {b}, b ∈ s.pending.filter (· ≠ a) → b ∈ s.pending ∧ b ≠ a := by
    intro b hb
    simpa using hb
  have hio' : IoSlot.Inv
    (State.io { s with ctx := c, pending := s.pending.filter (· ≠ a), past := past }) := by
    rw [State.io]
    dsimp only
    rw [hfreed]
    exact h.io_free ha hfree
  refine ⟨h.intact, hio', ?_, ?_, ?_, ?_, ?_, ?_, ?_, ?_, ?_, ?_⟩
  · have hcount := hperm.countP_eq (·.user)
    rw [countP_cons] at hcount
    simp only [hio, h.userIo, hcount]
    split_ifs <;> omega
  · rw [halloc, hfreed]
    exact (h.slots.trans ((hperm.map _).append_left _)).trans perm_middle
  · exact halloc ▸ h.once
  · exact fun hmem => h.token_lt (halloc ▸ hmem)
  · exact fun hmem => h.token_ne (halloc ▸ hmem)
  · intro b hb
    obtain ⟨hb, hne⟩ := hrest hb
    obtain ⟨v, hv⟩ := h.holds hb
    have htask : b.task ≠ a.task := fun he => hne (h.eq_of_task hb ha he)
    refine ⟨v, ?_, hv.slotData, hv.ctx, hv.counted⟩
    rw [htasks, update_of_ne htask, hv.task]
  · intro b hb
    obtain ⟨hb, hne⟩ := hrest hb
    rw [hlookup _ (h.token_lt (h.token_mem hb)), if_neg fun he => hne (h.eq_of_token hb ha he),
      h.live hb]
  · intro y v hy hnone
    rw [htasks, update_apply] at hy
    split_ifs at hy with hya
    · exact ho hy
    · refine h.idle hy fun b hb hby => ?_
      have hne : b ≠ a := fun he => hya (by rw [← hby, he])
      exact hnone b (by simpa using ⟨hb, hne⟩) hby
  · intro tok htok
    rw [hfreed] at htok
    rcases mem_cons.mp htok with rfl | htok
    · rw [hlookup _ (h.token_lt (h.token_mem ha)), if_pos rfl]
    · rw [hlookup _ (h.token_lt (h.freed_mem htok)), h.dead htok, ite_self]
  · intro b hb
    rw [hfreed]
    rcases hpast hb with rfl | hb
    · exact mem_cons_self
    · exact mem_cons_of_mem _ (h.past hb)

/-- **A completion is delivered.** -/
theorem Inv.deliver (h : Inv s) (ha : a ∈ s.pending ∨ a ∈ s.past) (res : ℤ) (done : Bool) :
    Inv (s.deliver a res done) := by
  by_cases hp : a ∈ s.pending
  · obtain ⟨u, hu⟩ := h.holds hp
    obtain ⟨t', hfree⟩ := h.exists_free hp
    rw [State.deliver, h.processUtask_eq hp hu, Ctx.complete, hu.slotData, hu.counted,
      free_uncount hfree,
      Option.map_some, State.after, Option.elim_some]
    have hidle : ∀ {v : Utask γ}, some
      { u with userIoCounted := false, slotData := 0, value := res, completed := true } =
        some v → v.Idle := by
      rintro v ⟨⟩
      exact ⟨rfl, rfl⟩
    dsimp only
    by_cases hresume : (u.handle.isSome && !done) = true
    · rw [if_pos hresume]
      exact h.resolve hp hfree rfl rfl rfl rfl hidle mem_cons.mp
    · rw [if_neg hresume]
      exact h.resolve hp hfree rfl rfl rfl rfl hidle mem_cons.mp
  · have hpast : a ∈ s.past := ha.resolve_left hp
    have hsame : s.pending.filter (· ≠ a) = s.pending :=
      filter_eq_self.mpr fun b hb => decide_eq_true fun he => hp (he ▸ hb)
    rw [State.deliver, processUtask_of_none (h.dead (h.past hpast)), State.after, Option.elim_some,
      hsame]
    refine { h with past := fun {b} hb => ?_ }
    rcases mem_cons.mp hb with rfl | hb
    · exact h.past hpast
    · exact h.past hb

/-- **A task is destroyed**, armed or not. -/
theorem Inv.destroy (h : Inv s) (hx : s.ctx.tasks x = some u) : Inv (s.destroy x u) := by
  by_cases hslot : u.slotData = 0
  · have hnone := h.not_pending_of_slotData hx hslot
    have hcount := (h.idle hx hnone).2
    have hsame : s.pending.filter (·.task ≠ x) = s.pending :=
      filter_eq_self.mpr fun b hb => decide_eq_true (hnone b hb)
    have hempty : s.pending.filter (·.task = x) = [] :=
      filter_eq_nil_iff.mpr fun b hb he => hnone b hb (of_decide_eq_true he)
    have hdestroy : s.ctx.destroy x u = some (s.ctx.setTask x none) :=
      by simp [Ctx.destroy, hcount, hslot]
    rw [State.destroy, hdestroy, State.after, Option.elim_some, hsame, hempty, nil_append]
    refine h.replace hnone ?_
    rintro u ⟨⟩
  · obtain ⟨a, ha, rfl⟩ : ∃ a ∈ s.pending, a.task = x := by
      by_contra hc
      exact hslot (h.idle hx fun a ha hax => hc ⟨a, ha, hax⟩).1
    obtain ⟨v, hv⟩ := h.holds ha
    obtain rfl : u = v := Option.some.inj (hx.symm.trans hv.task)
    obtain ⟨t', hfree⟩ := h.exists_free ha
    have hsame : s.pending.filter (·.task ≠ a.task) = s.pending.filter (· ≠ a) :=
      filter_congr fun b hb => by
        rw [decide_eq_decide]
        exact not_congr ⟨h.eq_of_task hb ha, congrArg Arming.task⟩
    have hdestroy : s.ctx.destroy a.task u = some
        { s.ctx with
          slots := t'
          freed := a.token :: s.ctx.freed
          userIo := if a.user then (s.ctx.userIo + (2 ^ 32 - 1)) % 2 ^ 32 else s.ctx.userIo
          tasks := Function.update s.ctx.tasks a.task none } := by
      have hne : a.token ≠ 0 := h.token_ne (h.token_mem ha)
      simp only [Ctx.destroy, hv.slotData, hv.counted, hv.ctx, Bool.and_true, hne, ne_eq,
        not_false_eq_true, decide_true,
        if_true, free_uncount hfree, Option.map_some, Ctx.setTask]
    rw [State.destroy, hdestroy, State.after, Option.elim_some, hsame]
    refine h.resolve ha hfree rfl rfl rfl rfl (by rintro u ⟨⟩) fun hb => ?_
    rcases mem_append.mp hb with hb | hb
    · obtain ⟨hb, he⟩ := mem_filter.mp hb
      exact .inl (h.eq_of_task hb ha (of_decide_eq_true he))
    · exact .inr hb

/-! ## Every history -/

theorem Inv.step {act : Act τ γ} (h : Inv s) (hok : Armable s act) (hst : step s act = some t) : Inv
    t := by
  cases act with
  | construct x =>
    rw [Tasks.step] at hst
    split_ifs at hst with hx
    obtain rfl := Option.some.inj hst
    refine h.replace (h.not_pending_of_none hx) ?_
    rintro u ⟨⟩
    exact ⟨rfl, rfl⟩
  | markSystem | suspend | fail => exact h.touch hst (fun _ => rfl) (fun _ => rfl) fun _ => rfl
  | move x y =>
    obtain ⟨u, hx, hst⟩ := Option.bind_eq_some_iff.mp hst
    split_ifs at hst with hxy
    obtain rfl := Option.some.inj hst
    exact h.move hx hxy.1 hxy.2
  | prepare x =>
    obtain ⟨u, hx, hst⟩ := Option.bind_eq_some_iff.mp hst
    split_ifs at hst with hu
    obtain rfl := Option.some.inj hst
    exact h.prepare hx hu.1 hu.2 hok
  | cqe a res done =>
    rw [Tasks.step] at hst
    split_ifs at hst with ha
    obtain rfl := Option.some.inj hst
    exact h.deliver ha res done
  | nullCqe res =>
    obtain rfl := Option.some.inj hst
    exact h
  | destroy x =>
    obtain ⟨u, hx, rfl⟩ := Option.map_eq_some_iff.mp hst
    exact h.destroy hx

/-- **The accounts of every history** in which no slot is reused too often and the table does not
outgrow its 32 bits. -/
theorem accounts_sound {capacity : ℕ} {as : List (Act τ γ)} (h₀ : 0 < capacity)
    (hc : capacity < 2 ^ 32)
    (h : Run step Armable (.make capacity) as s) : s.Sound :=
  (h.invariant (inv_make h₀ hc) Inv.step).sound

/-- A read is moved into its awaiter and armed; a timer of the framework is armed and destroyed; its
CQE comes late, after the read's, and its slot has been taken again. -/
def lateWord : List (Act ℕ ℕ) :=
  [.construct 0, .move 0 1, .suspend 1 5, .prepare 1, .construct 2, .markSystem 2, .prepare 2,
    .destroy 2,
    .construct 3, .prepare 3, .cqe ⟨1, 1, 2 ^ 32 + 1, true⟩ 10 false, .cqe ⟨2, 2, 2 ^ 32, false⟩
      (-125) false,
    .nullCqe 0]

theorem accounts_sound_late : ∃ s : State ℕ ℕ, Run step Armable (.make 2) lateWord s ∧ s.Sound ∧
    s.ctx.userIo = 1 ∧ s.ctx.ready = [1] ∧ s.ctx.freed = [2 ^ 32 + 1, 2 ^ 32] :=
  Run.exists_and_of_mem (accounts_sound (by decide) (by decide)) (by decide +kernel)

/-! ## The slot that wraps -/

/-- The state in which a task has been built and armed. -/
def State.arm (s : State τ γ) (x : τ) : State τ γ :=
  State.prepare { s with ctx := s.ctx.setTask x (some {}) } x {}

/-- **Arming a new task** while slot `i` is the next free one. -/
theorem Inv.arm_eq {i : ℕ} {rest : List ℕ} (h : Inv s) (hfree : s.ctx.slots.freeList = i :: rest)
    (x : τ) :
    ∃ tok, tok = IoSlot.encodeSlot i (s.ctx.slots.cell i).generation ∧ ∃ n, s.arm x =
      { s with
        ctx := { s.ctx with
          slots := ⟨s.ctx.slots.slots.set i { s.ctx.slots.cell i with task := some x }, rest⟩
          allocated := tok :: s.ctx.allocated
          userIo := (s.ctx.userIo + 1) % 2 ^ 32
          tasks := update s.ctx.tasks x (some { slotData := tok, userIoCounted := true }) }
        pending := ⟨n, x, tok, true⟩ :: s.pending } := by
  refine ⟨_, rfl, s.ctx.allocated.length + 1, ?_⟩
  have halloc : s.ctx.slots.alloc x = _ := h.ok.alloc_of_cons hfree
  rw [State.arm, State.prepare, prepareInto_eq (c := s.ctx.setTask x (some {})) rfl rfl halloc,
    State.after,
    Option.elim_some, headD_cons]
  simp [Ctx.setTask]

omit [DecidableEq τ] in
theorem armable_of_lt {i : ℕ} {rest : List ℕ} (hfree : s.ctx.slots.freeList = i :: rest)
    (hlt : s.io.returns i < 2 ^ 32 - 1) (x : τ) : Armable s (.prepare x) := by
  have hne : s.ctx.slots.freeList ≠ [] := hfree ▸ cons_ne_nil _ _
  have hnext : s.io.table.next? = some i := by
    rw [IoSlot.Table.next?, State.io, IoSlot.Table.ready_of_ne hne, hfree, head?_cons]
  refine ⟨fun j hj => ?_, fun hnil => absurd hnil hne, fun hzero => ?_⟩
  · obtain rfl := Option.some.inj (hnext.symm.trans hj)
    omega
  · obtain rfl := Option.some.inj (hnext.symm.trans hzero)
    omega

/-- A task is built and armed, and the run goes on. -/
theorem Run.arm {s₀ : State τ γ} {as : List (Act τ γ)} {ok : State τ γ → Act τ γ → Prop}
    (hrun : Run step ok s₀ as s) (hnone : s.ctx.tasks x = none) (hbuilt : ok s (.construct x))
    (hok : ok { s with ctx := s.ctx.setTask x (some {}) } (.prepare x)) :
    Run step ok s₀ (as ++ [.construct x] ++ [.prepare x]) (s.arm x) := by
  refine (hrun.snoc hbuilt (if_pos hnone)).snoc hok ?_
  rw [step, setTask_tasks_self, Option.bind_some, if_pos ⟨rfl, rfl⟩]
  rfl

/-- Tasks in flight, each with a slot of its own. -/
def inFlight (n : ℕ) : List (Act ℕ ℕ) :=
  (range n).flatMap fun x => [.construct x, .prepare x]

/-- One task after the other that is armed and destroyed. -/
def cycles (x n : ℕ) : List (Act ℕ ℕ) :=
  (replicate n [.construct x, .prepare x, .destroy x]).flatten

theorem inFlight_takes {capacity : ℕ} (hc : capacity < 2 ^ 32) : ∀ n < capacity, ∃ s,
    Run step Armable (.make capacity) (inFlight n) s ∧
      s.ctx.slots.freeList = (range (capacity - n)).reverse ∧ s.ctx.freed = [] ∧
        ∀ x, n ≤ x → s.ctx.tasks x = none
  | 0, _ => ⟨_, .nil, rfl, rfl, fun _ _ => rfl⟩
  | n + 1, hn => by
      obtain ⟨s, hrun, hfree, hfreed, hnone⟩ := inFlight_takes hc n (by omega)
      have hinv := hrun.invariant (inv_make (by omega) hc) Inv.step
      obtain ⟨m, hm⟩ : ∃ m, capacity - n = m + 1 := ⟨capacity - n - 1, by omega⟩
      have hhead : s.ctx.slots.freeList = m :: (range (capacity - (n + 1))).reverse := by
        rw [hfree, hm, range_succ, reverse_append, reverse_singleton, singleton_append,
          show capacity - (n + 1) = m by omega]
      obtain ⟨tok, -, k, harm⟩ := hinv.arm_eq hhead n
      have hok := armable_of_lt (s := { s with ctx := s.ctx.setTask n (some {}) }) hhead
        (by simp [State.io, Ctx.setTask, hfreed]) n
      refine ⟨s.arm n, ?_, by rw [harm], by rw [harm]; exact hfreed, fun x hx => ?_⟩
      · rw [inFlight, range_succ, flatMap_append, flatMap_singleton, ← inFlight, append_cons]
        exact Run.arm hrun (hnone n le_rfl) trivial hok
      · rw [harm]
        exact (update_of_ne (by omega) ..).trans (hnone x (by omega))

/-- What is left of a task that was armed and destroyed: its slot is the next one again. -/
theorem Inv.cycle {i : ℕ} {rest : List ℕ} (h : Inv s) (hfree : s.ctx.slots.freeList = i :: rest)
    (hlt : s.io.returns i < 2 ^ 32 - 1) : ∃ u t,
      (s.arm x).ctx.tasks x = some u ∧ (s.arm x).destroy x u = t ∧
        t.ctx.slots.freeList = i :: rest ∧
        t.io.returns i = s.io.returns i + 1 ∧ t.ctx.tasks x = none := by
  have hi := (h.ok.mem_iff.mp (hfree ▸ mem_cons_self)).1
  have hi' : i < 2 ^ 32 := hi.trans h.ok.lt
  have hgen : (s.ctx.slots.cell i).generation = (1 + s.io.returns i) % 2 ^ 32 := h.io.gen_eq i
  obtain ⟨tok, htok, k, harm⟩ := h.arm_eq hfree x
  have hne : tok ≠ 0 := by
    rw [htok, Ne, IoSlot.encodeSlot_eq_zero hi']
    omega
  refine ⟨_, _, by rw [harm]; exact update_self .., rfl, ?_⟩
  have hidx : IoSlot.decodeSlotIndex tok = i := htok ▸ IoSlot.decodeSlotIndex_encodeSlot hi' _
  rw [harm]
  simp [State.destroy, Ctx.destroy, hne, Ctx.free, IoSlot.Table.free, hidx, State.after,
    Ctx.userIoRemove, hi,
    Ctx.setTask, State.io]

theorem cycles_return {i x capacity : ℕ} {as : List (Act ℕ ℕ)} {s₁ : State ℕ ℕ}
    (hc : capacity < 2 ^ 32)
    (h₀ : 0 < capacity) (h₁ : Run step Armable (.make capacity) as s₁)
      (hfree : s₁.ctx.slots.freeList = [i])
    (hfreed : s₁.ctx.freed = []) (hnone : s₁.ctx.tasks x = none) : ∀ n < 2 ^ 32, ∃ s,
      Run step Armable (.make capacity) (as ++ cycles x n) s ∧ s.ctx.slots.freeList = [i] ∧
        s.io.returns i = n ∧ s.ctx.tasks x = none
  | 0, _ => ⟨s₁, by simpa [cycles] using h₁, hfree, by simp [State.io, hfreed], hnone⟩
  | n + 1, hn => by
      obtain ⟨s, hrun, hfree, hcount, hnone⟩ :=
        cycles_return hc h₀ h₁ hfree hfreed hnone n (by omega)
      have hinv := hrun.invariant (inv_make h₀ hc) Inv.step
      have hlt : s.io.returns i < 2 ^ 32 - 1 := by
        omega
      obtain ⟨u, t, hu, ht, htfree, htcount, htnone⟩ := hinv.cycle hfree hlt (x := x)
      have hok := armable_of_lt (s := { s with ctx := s.ctx.setTask x (some {}) }) hfree hlt x
      refine ⟨t, ?_, htfree, htcount.trans (congrArg (· + 1) hcount), htnone⟩
      have hword : as ++ cycles x (n + 1) =
          as ++ cycles x n ++ [.construct x] ++ [.prepare x] ++ [.destroy x] := by
        simp [cycles, replicate_succ']
      rw [hword]
      refine (Run.arm hrun hnone trivial hok).snoc trivial ?_
      rw [step, hu, Option.map_some, ht]

/-- All slots but slot 0 are in use; it is used and returned until its generation is 0. -/
def wrapWord (capacity : ℕ) : List (Act ℕ ℕ) :=
  inFlight (capacity - 1) ++ cycles (capacity - 1) (2 ^ 32 - 1) ++ [.construct (capacity - 1)] ++
    [.prepare (capacity - 1)]

/-- A task whose token is 0 is not told of its completion. -/
theorem not_sound_of_zero {a : Arming τ} (ha : a ∈ s.pending)
    (hzero : a.token = 0) : ¬ s.Sound := by
  intro hsound
  obtain ⟨u, -, hslot, hown⟩ := hsound.own a ha
  have hdone := hown 0 false
  rw [hzero, Ctx.processUtask, if_pos rfl, Ctx.complete, hslot, hzero] at hdone
  obtain ⟨c, hc, he⟩ := Option.map_eq_some_iff.mp hdone.symm
  obtain ⟨t, -, rfl⟩ := Option.map_eq_some_iff.mp hc
  have hfreed := congrArg (fun c : Ctx τ γ => c.freed.length) he
  split_ifs at hfreed <;> simp [Ctx.setTask, Ctx.userIoRemove] at hfreed

theorem wraps {c : ℕ} (h₀ : 0 < c) (hc : c < 2 ^ 32) : ∃ s : State ℕ ℕ,
    Run step (fun _ _ => True) (.make c) (wrapWord c) s ∧ ∃ a ∈ s.pending, a.token = 0 := by
  obtain ⟨s₁, h₁, hfree₁, hfreed, hnone₁⟩ := inFlight_takes hc (c - 1) (by omega)
  rw [show c - (c - 1) = 1 by omega] at hfree₁
  obtain ⟨s, hrun, hfree, hcount, hnone⟩ :=
    cycles_return hc h₀ h₁ hfree₁ hfreed (hnone₁ _ le_rfl) (2 ^ 32 - 1) (by decide)
  have hinv := hrun.invariant (inv_make h₀ hc) Inv.step
  obtain ⟨tok, htok, k, harm⟩ := hinv.arm_eq hfree (c - 1)
  have hgen : (s.ctx.slots.cell 0).generation = (1 + s.io.returns 0) % 2 ^ 32 := hinv.io.gen_eq 0
  rw [hcount] at hgen
  refine ⟨_, Run.arm (hrun.mono fun _ _ _ => trivial) hnone trivial trivial, ⟨k, c - 1, tok, true⟩,
    ?_, ?_⟩
  · rw [harm]
    exact mem_cons_self
  · rw [htok, hgen]
    rfl

/-- **The slot that wraps.**  4095 operations are in flight, and the last slot of the table is taken
and given back 2³² − 1 times: the next operation's token is 0, its CQE is skipped, and its task
waits for ever. -/
theorem wrapped_token_lost : ∃ s : State ℕ ℕ, Run step (fun _ _ => True) (.make 4096)
    (wrapWord 4096) s ∧
    (∃ a ∈ s.pending, a.token = 0 ∧ ∀ res done, s.ctx.processUtask a.token res done = some s.ctx) ∧
      ¬ s.Sound := by
  obtain ⟨s, hrun, a, ha, hzero⟩ := wraps (c := 4096) (by decide) (by decide)
  refine ⟨s, hrun, ⟨a, ha, hzero, fun res done => ?_⟩, not_sound_of_zero ha hzero⟩
  rw [Ctx.processUtask, if_pos hzero]

end Cornet.Tasks
