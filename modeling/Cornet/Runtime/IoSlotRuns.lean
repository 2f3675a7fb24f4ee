import Cornet.Runtime.IoSlot

/-!
# Runtime/IoSlotRuns — which tokens are live, over every history of a table

    alloc ──▸ live ──free──▸ stale        slot i:  gen 1, 2, 3, ⋯, 2³² − 1, 0, 1, ⋯

A table is followed through any sequence of `alloc` and `free` of live tokens.  A cell that was
freed `k` times carries generation `1 + k` modulo 2³², so a token is new as long as its slot is not
reused 2³² times; and it is zero once, on slot 0, the time before.
-/

namespace Cornet.IoSlot

open List Function

variable {τ : Type*} {task : τ} {ud i : ℕ}

/-! ## The system -/

/-- A table with its history: the tokens out, the tokens taken back, how often each slot came back,
and whether an `alloc` or a `free` has read outside a vector. -/
structure State (τ : Type*) where
  table : Table τ
  live : List (ℕ × τ) := []
  freed : List ℕ := []
  returns : ℕ → ℕ := fun _ => 0
  broken : Bool := false

inductive Act (τ : Type*)
  | alloc (task : τ)
  | free (userData : ℕ)

def State.alloc (s : State τ) (task : τ) : State τ :=
  (s.table.alloc task).elim { s with broken := true } fun r =>
    { s with table := r.2, live := (r.1, task) :: s.live }

def State.free (s : State τ) (userData : ℕ) : State τ :=
  (s.table.free userData).elim { s with broken := true } fun t =>
    { s with
      table := t
      live := s.live.filter (·.1 ≠ userData)
      freed := userData :: s.freed
      returns := Function.update s.returns (decodeSlotIndex userData)
        (s.returns (decodeSlotIndex userData) + 1) }

/-- Only a live token is freed. -/
def step (s : State τ) : Act τ → Option (State τ)
  | .alloc task => some (s.alloc task)
  | .free userData => if ∃ p ∈ s.live, p.1 = userData then some (s.free userData) else none

def State.make (capacity : ℕ) : State τ where
  table := .make capacity

/-- No slot is reused 2³² times. -/
def Sparing (s : State τ) : Act τ → Prop
  | .alloc _ => ∀ i ∈ s.table.next?, s.returns i < 2 ^ 32
  | .free _ => True

instance (s : State τ) : (a : Act τ) → Decidable (Sparing s a)
  | .alloc _ => inferInstanceAs (Decidable (∀ i ∈ s.table.next?, s.returns i < 2 ^ 32))
  | .free _ => inferInstanceAs (Decidable True)

/-- A full table has fewer than 2³¹ slots when it doubles, and slot 0 is reused fewer than 2³² − 1
times. -/
def Narrow (s : State τ) : Act τ → Prop
  | .alloc _ => s.table.Roomy ∧ (s.table.next? = some 0 → s.returns 0 ≠ 2 ^ 32 - 1)
  | .free _ => True

instance (s : State τ) : (a : Act τ) → Decidable (Narrow s a)
  | .alloc _ => inferInstanceAs (Decidable (_ ∧ (_ → _)))
  | .free _ => inferInstanceAs (Decidable True)

/-- What a history of tokens should look like. -/
structure State.Sound (s : State τ) : Prop where
  intact : s.broken = false
  lookup_iff : ∀ ud < 2 ^ 64, ∀ task, s.table.lookup ud = some task ↔ (ud, task) ∈ s.live
  stale : ∀ ud ∈ s.freed, s.table.lookup ud = none
  distinct : (s.live.map Prod.fst).Nodup
  ne_zero : ∀ p ∈ s.live, p.1 ≠ 0
  free_nodup : s.table.freeList.Nodup
  free_iff : ∀ i, i ∈ s.table.freeList ↔ i < s.table.slots.length ∧ ∀ p ∈ s.live,
    decodeSlotIndex p.1 ≠ i

/-! ## The invariant -/

/-- The live tokens are those of the cells with a task, and a cell counts how often it came back. -/
structure Inv (s : State τ) : Prop where
  intact : s.broken = false
  ok : s.table.Ok
  nodup : (s.live.map Prod.fst).Nodup
  live_iff : ∀ {ud task}, (ud, task) ∈ s.live ↔
    ∃ i < 2 ^ 32, ud = encodeSlot i (s.table.cell i).generation ∧ (s.table.cell i).task = some task
  gen_eq : ∀ i, (s.table.cell i).generation = (1 + s.returns i) % 2 ^ 32
  returns_lt : ∀ {i task}, (s.table.cell i).task = some task → s.returns i < 2 ^ 32
  returns_zero : ∀ {task}, (s.table.cell 0).task = some task → s.returns 0 ≠ 2 ^ 32 - 1
  freed : ∀ {ud}, ud ∈ s.freed → ∃ i < 2 ^ 32, ∃ k < s.returns i, ud = encodeSlot i
    ((1 + k) % 2 ^ 32)

variable {s t : State τ} {a : Act τ}

theorem Inv.stale (h : Inv s) (hud : ud ∈ s.freed) : s.table.lookup ud = none := by
  obtain ⟨i, hi, k, hk, rfl⟩ := h.freed hud
  rw [Option.eq_none_iff_forall_ne_some]
  intro task hl
  obtain ⟨j, hj, he, htask⟩ :=
    (h.ok.lookup_iff (encodeSlot_lt hi (Nat.mod_lt _ (by decide)))).mp hl
  obtain ⟨rfl, hg⟩ := encodeSlot_inj hi hj he
  have hlt := h.returns_lt htask
  rw [h.gen_eq] at hg
  omega

theorem Inv.ne_zero (h : Inv s) {p : ℕ × τ} (hp : p ∈ s.live) : p.1 ≠ 0 := by
  obtain ⟨i, hi, he, htask⟩ := h.live_iff.mp hp
  rw [he, ne_eq, encodeSlot_eq_zero hi, h.gen_eq]
  rintro ⟨rfl, hg⟩
  have hlt := h.returns_lt htask
  have hne := h.returns_zero htask
  omega

theorem Inv.free_iff (h : Inv s) (i : ℕ) : i ∈ s.table.freeList ↔
    i < s.table.slots.length ∧ ∀ p ∈ s.live, decodeSlotIndex p.1 ≠ i := by
  rw [h.ok.mem_iff]
  refine and_congr_right fun hi => ⟨?_, fun hlive => ?_⟩
  · intro hnone p hp hpi
    obtain ⟨j, hj, he, htask⟩ := h.live_iff.mp hp
    rw [he, decodeSlotIndex_encodeSlot hj] at hpi
    rw [hpi, hnone] at htask
    cases htask
  · rw [Option.eq_none_iff_forall_ne_some]
    intro task htask
    have hlt : i < 2 ^ 32 := hi.trans h.ok.lt
    exact hlive _ (h.live_iff.mpr ⟨i, hlt, rfl, htask⟩) (decodeSlotIndex_encodeSlot hlt _)

theorem Inv.sound (h : Inv s) : s.Sound where
  intact := h.intact
  lookup_iff _ hud _ := (h.ok.lookup_iff hud).trans h.live_iff.symm
  stale _ hud := h.stale hud
  distinct := h.nodup
  ne_zero _ hp := h.ne_zero hp
  free_nodup := h.ok.nodup
  free_iff := h.free_iff

theorem inv_make {capacity : ℕ} (h₀ : 0 < capacity) (hc : capacity < 2 ^ 32) : Inv
    (State.make capacity : State τ) where
  intact := rfl
  ok := ok_make h₀ hc
  nodup := nodup_nil
  live_iff := by simp [State.make, cell_make, Slot.fresh]
  gen_eq i := by simp [State.make, cell_make, Slot.fresh]
  returns_lt _ := by simp [State.make]
  returns_zero _ := by simp [State.make]
  freed hud := absurd hud not_mem_nil

/-- What is live after a cell without a task has got one. -/
theorem Inv.alloc (h : Inv s) (hsp : Sparing s (.alloc task)) (hn : Narrow s (.alloc task)) :
    Inv (s.alloc task) := by
  obtain ⟨i, t', hnext, hi, hfree, halloc, hok, hcell⟩ := h.ok.alloc_eq hn.1 task
  have hnew : ∀ task', (encodeSlot i (s.table.cell i).generation, task') ∉ s.live := by
    intro task' hmem
    obtain ⟨j, hj, he, htask⟩ := h.live_iff.mp hmem
    obtain ⟨rfl, -⟩ := encodeSlot_inj hi hj he
    rw [hfree] at htask
    cases htask
  have hgen : ∀ j, (t'.cell j).generation = (s.table.cell j).generation := by
    intro j
    rw [hcell, update_apply]
    split_ifs with hji
    · rw [hji]
    · rfl
  have htask : ∀ {j task'}, (t'.cell j).task = some task' ↔
      (j = i ∧ task = task') ∨ (s.table.cell j).task = some task' := by
    intro j task'
    rw [hcell, update_apply]
    split_ifs with hji
    · simp [hji, hfree]
    · simp [hji]
  have hs : s.alloc task =
      { s with table := t', live := (encodeSlot i (s.table.cell i).generation, task) :: s.live
                 } := by
    rw [State.alloc, halloc, Option.elim_some]
  rw [hs]
  refine ⟨h.intact, hok, ?_, ?_, ?_, ?_, ?_, h.freed⟩
  · rw [map_cons, nodup_cons]
    refine ⟨fun hmem => ?_, h.nodup⟩
    obtain ⟨p, hp, hpe⟩ := mem_map.mp hmem
    refine hnew p.2 ?_
    rwa [← show p.1 = encodeSlot i (s.table.cell i).generation from hpe]
  · intro ud task'
    simp only [mem_cons, h.live_iff, hgen, htask, Prod.mk.injEq]
    constructor
    · rintro (⟨rfl, rfl⟩ | ⟨j, hj, hud, ht⟩)
      · exact ⟨i, hi, rfl, .inl ⟨rfl, rfl⟩⟩
      · exact ⟨j, hj, hud, .inr ht⟩
    · rintro ⟨j, hj, hud, ⟨rfl, rfl⟩ | ht⟩
      · exact .inl ⟨hud, rfl⟩
      · exact .inr ⟨j, hj, hud, ht⟩
  · intro j
    rw [hgen, h.gen_eq]
  · intro j task' hj
    rcases htask.mp hj with ⟨rfl, -⟩ | hj
    · exact hsp _ hnext
    · exact h.returns_lt hj
  · intro task' hj
    rcases htask.mp hj with ⟨rfl, -⟩ | hj
    · exact hn.2 hnext
    · exact h.returns_zero hj

/-- What is live after a live token has been freed. -/
theorem Inv.free (h : Inv s) (hlive : (ud, task) ∈ s.live) : Inv (s.free ud) := by
  obtain ⟨i, hi, rfl, htask⟩ := h.live_iff.mp hlive
  obtain ⟨t', hfree, hok, hcell⟩ := h.ok.free_eq hi htask (s.table.cell i).generation
  set ud := encodeSlot i (s.table.cell i).generation with hud
  have hother : ∀ {j}, j ≠ i → t'.cell j = s.table.cell j := by
    intro j hji
    rw [hcell, update_of_ne hji]
  have hself : t'.cell i = { task := none, generation := ((s.table.cell i).generation + 1) % 2 ^ 32
                               } := by
    rw [hcell, update_self]
  have htask' : ∀ {j task'}, (t'.cell j).task = some task' ↔ j ≠ i ∧
    (s.table.cell j).task = some task' := by
    intro j task'
    by_cases hji : j = i
    · simp [hji, hself]
    · simp [hji, hother hji]
  have hs : s.free ud =
      { s with
        table := t'
        live := s.live.filter (·.1 ≠ ud)
        freed := ud :: s.freed
        returns := Function.update s.returns i (s.returns i + 1) } := by
    rw [State.free, hfree, Option.elim_some, hud, decodeSlotIndex_encodeSlot hi]
  rw [hs]
  refine ⟨h.intact, hok, ?_, ?_, ?_, ?_, ?_, ?_⟩
  · exact h.nodup.sublist (filter_sublist.map _)
  · intro ud' task'
    rw [mem_filter, h.live_iff, decide_eq_true_eq]
    constructor
    · rintro ⟨⟨j, hj, rfl, ht⟩, hne⟩
      have hji : j ≠ i := by
        rintro rfl
        exact hne rfl
      exact ⟨j, hj, by rw [hother hji], htask'.mpr ⟨hji, ht⟩⟩
    · rintro ⟨j, hj, rfl, ht⟩
      obtain ⟨hji, ht⟩ := htask'.mp ht
      rw [hother hji]
      exact ⟨⟨j, hj, rfl, ht⟩, fun he => hji (encodeSlot_inj hj hi he).1⟩
  · intro j
    by_cases hji : j = i
    · subst hji
      simp only [hself, h.gen_eq, update_self]
      omega
    · simp only [hother hji, h.gen_eq, update_of_ne hji]
  · intro j task' hj
    obtain ⟨hji, hj⟩ := htask'.mp hj
    simpa only [update_of_ne hji] using h.returns_lt hj
  · intro task' hj
    obtain ⟨hji, hj⟩ := htask'.mp hj
    simpa only [update_of_ne hji] using h.returns_zero hj
  · intro ud' hmem
    rcases mem_cons.mp hmem with rfl | hmem
    · refine ⟨i, hi, s.returns i, by simp, ?_⟩
      rw [hud, h.gen_eq]
    · obtain ⟨j, hj, k, hk, rfl⟩ := h.freed hmem
      refine ⟨j, hj, k, hk.trans_le ?_, rfl⟩
      simp only [update_apply]
      split_ifs with hji
      · exact hji ▸ Nat.le_succ _
      · exact le_rfl

/-! ## Every history -/

/-- The `alloc` that finds a table of 2³¹ slots full reads outside the free list; the one that takes
slot 0 at generation 0 returns token 0. -/
theorem Inv.sound_alloc_iff (h : Inv s) (hsp : Sparing s (.alloc task)) :
    (s.alloc task).Sound ↔ Narrow s (.alloc task) := by
  refine ⟨fun hs => ?_, fun hn => (h.alloc hsp hn).sound⟩
  have hroom : s.table.Roomy := by
    by_contra hroom
    have hbroken : (s.alloc task).broken = true :=
      by rw [State.alloc, h.ok.alloc_eq_none hroom, Option.elim_none]
    exact Bool.false_ne_true (hs.intact.symm.trans hbroken)
  refine ⟨hroom, fun hzero hret => ?_⟩
  obtain ⟨i, t', hnext, hi, -, halloc, -⟩ := h.ok.alloc_eq hroom task
  obtain rfl : i = 0 := Option.some.inj (hnext.symm.trans hzero)
  have hgen : (s.table.cell 0).generation = 0 := by
    rw [h.gen_eq, hret]
    norm_num
  have hmem : (encodeSlot 0 (s.table.cell 0).generation, task) ∈ (s.alloc task).live := by
    rw [State.alloc, halloc, Option.elim_some]
    exact mem_cons_self
  exact hs.ne_zero _ hmem ((encodeSlot_eq_zero hi).mpr ⟨rfl, hgen⟩)

theorem step_cases (hst : step s a = some t) : (∃ task, a = .alloc task ∧ t = s.alloc task) ∨
    ∃ ud task, a = .free ud ∧ (ud, task) ∈ s.live ∧ t = s.free ud := by
  cases a with
  | alloc task => exact .inl ⟨task, rfl, (Option.some.inj hst).symm⟩
  | free ud =>
    rw [step] at hst
    split_ifs at hst with hlive
    obtain ⟨⟨_, task⟩, hp, rfl⟩ := hlive
    exact .inr ⟨_, task, rfl, hp, (Option.some.inj hst).symm⟩

theorem Inv.sound_step_iff (h : Inv s) (hsp : Sparing s a) (hst : step s a = some t) : t.Sound ↔
    Narrow s a := by
  rcases step_cases hst with ⟨task, rfl, rfl⟩ | ⟨ud, task, rfl, hlive, rfl⟩
  · exact h.sound_alloc_iff hsp
  · exact iff_of_true (h.free hlive).sound trivial

theorem Inv.step (h : Inv s) (hok : Sparing s a ∧ Narrow s a) (hst : step s a = some t) : Inv
    t := by
  rcases step_cases hst with ⟨task, rfl, rfl⟩ | ⟨ud, task, rfl, hlive, rfl⟩
  · exact h.alloc hok.1 hok.2
  · exact h.free hlive

theorem inv_of_run {capacity : ℕ} {as : List (Act τ)} (h₀ : 0 < capacity) (hc : capacity < 2 ^ 32)
    (h : Run step (fun s a => Sparing s a ∧ Narrow s a) (.make capacity) as s) : Inv s :=
  h.invariant (inv_make h₀ hc) Inv.step

/-- **Tokens, exactly.**  As long as no full table of 2³¹ slots is asked for one more, and slot 0 is
not taken at generation 0, a token finds its task while it is live and nothing else ever does; the
first step that fails this ends it. -/
theorem tokens_sound_iff {capacity : ℕ} {as : List (Act τ)} (h₀ : 0 < capacity)
    (hc : capacity < 2 ^ 32)
    (h : Run step (fun s a => Sparing s a ∧ Narrow s a) (.make capacity) as s) :
    s.Sound ∧ ∀ a t, Sparing s a → step s a = some t → (t.Sound ↔ Narrow s a) :=
  have hinv := inv_of_run h₀ hc h
  ⟨hinv.sound, fun _ _ hsp hst => hinv.sound_step_iff hsp hst⟩

/-- One slot is taken, the table doubles, and the first slot is used again: its token has a new
generation. -/
def reuseWord : List (Act ℕ) := [.alloc 7, .alloc 8, .free (2 ^ 32), .alloc 9]

theorem tokens_sound_iff_reuse : ∃ s : State ℕ,
    Run step (fun s a => Sparing s a ∧ Narrow s a) (.make 1) reuseWord s ∧ s.Sound ∧
      s.live = [(2 * 2 ^ 32, 9), (2 ^ 32 + 1, 8)] ∧ s.freed = [2 ^ 32] :=
  Run.exists_and_of_mem (fun h => (tokens_sound_iff (by decide) (by decide) h).1)
    (by decide +kernel)

/-! ## The table that cannot double -/

theorem Table.Ok.alloc_of_cons {t : Table τ} {rest : List ℕ} (h : t.Ok)
    (hfree : t.freeList = i :: rest) :
    t.alloc task = some (encodeSlot i (t.cell i).generation,
      { slots := t.slots.set i { t.cell i with task := some task }, freeList := rest }) := by
  have hi : i < t.slots.length := (h.mem_iff.mp (hfree ▸ mem_cons_self)).1
  have hready : t.ready = t := Table.ready_of_ne (hfree ▸ cons_ne_nil _ _)
  simp only [Table.alloc, hready, hfree, Table.slots_getElem? hi, Option.map_some]

/-- A table can be filled. -/
theorem fill (task : τ) {capacity : ℕ} (h₀ : 0 < capacity)
    (hc : capacity < 2 ^ 32) : ∀ n ≤ capacity, ∃ s,
    Run step (fun s a => Sparing s a ∧ Narrow s a) (.make capacity) (List.replicate n (.alloc task))
      s ∧
      s.table.slots.length = capacity ∧ s.table.freeList.length = capacity - n ∧
        s.returns = fun _ => 0
  | 0, _ => ⟨_, .nil, by simp [State.make, Table.make], by simp [State.make, Table.make], rfl⟩
  | n + 1, hn => by
      obtain ⟨s, hrun, hsize, hleft, hret⟩ := fill task h₀ hc n (Nat.le_of_succ_le hn)
      have hinv := inv_of_run h₀ hc hrun
      obtain ⟨i, rest, hfree⟩ : ∃ i rest, s.table.freeList = i :: rest := by
        refine exists_cons_of_ne_nil (ne_nil_of_length_pos ?_)
        omega
      have hroom : s.table.Roomy :=
        fun hnil => absurd (hnil.symm.trans hfree) (cons_ne_nil _ _).symm
      have hok : Sparing s (.alloc task) ∧ Narrow s (.alloc task) := by
        refine ⟨fun j _ => ?_, hroom, fun _ => ?_⟩ <;> simp [hret]
      refine ⟨s.alloc task, ?_, ?_⟩
      · rw [replicate_succ']
        exact hrun.snoc hok rfl
      · rw [hfree, length_cons] at hleft
        rw [State.alloc, hinv.ok.alloc_of_cons hfree, Option.elim_some]
        exact ⟨(length_set ..).trans hsize, show rest.length = _ by omega, hret⟩

/-- Whatever table of 2³¹ slots or more: one `alloc` more than it has slots breaks it. -/
theorem overfill (task : τ) {capacity : ℕ} (hmin : 2 ^ 31 ≤ capacity)
    (hc : capacity < 2 ^ 32) : ∃ s,
    Run step Sparing (.make capacity) (List.replicate (capacity + 1) (.alloc task)) s ∧
      ¬ s.Sound := by
  have h₀ : 0 < capacity := by omega
  obtain ⟨s, hrun, hsize, hleft, hret⟩ := fill task h₀ hc capacity le_rfl
  have hinv := inv_of_run h₀ hc hrun
  have hsp : Sparing s (.alloc task) := fun j _ => by simp [hret]
  refine ⟨s.alloc task, ?_, ?_⟩
  · rw [replicate_succ']
    exact (hrun.mono fun _ _ hok => hok.1).snoc hsp rfl
  · rw [hinv.sound_alloc_iff hsp]
    rintro ⟨hroom, -⟩
    have hnil : s.table.freeList = [] := eq_nil_of_length_eq_zero (by omega)
    have hlt := hroom hnil
    omega

/-- **A full table of 2³¹ slots.**  Its doubled size is 0 as a 32-bit number. -/
theorem full_table_breaks : ∃ s : State ℕ,
    Run step Sparing (.make (2 ^ 31)) (List.replicate (2 ^ 31 + 1) (.alloc 7)) s ∧ ¬ s.Sound :=
  overfill 7 le_rfl (by decide)

end Cornet.IoSlot
