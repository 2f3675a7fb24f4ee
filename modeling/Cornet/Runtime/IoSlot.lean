import Mathlib.Data.Nat.Bitwise
import Mathlib.Data.List.Nodup
import Cornet.Machinery.Run

/-!
# Runtime/IoSlot — the slot table behind an io_uring token

    user_data  =  generation : 32 ∣ index : 32
                       │                └──▸ slots[index] = ⟨task, generation⟩
                       └── stale as soon as the slot has been freed

`io_slot_table_t` hands out 64-bit tokens for tasks.  A freed slot counts its generation up, so the
tokens it was known by before find nothing.  A full table doubles; the size and the generation are
32-bit numbers, and both can wrap.  Read beyond its end the table is all fresh slots (`Table.cell`),
which makes growth invisible: `alloc` and `free` are then one update of one cell each (`alloc_eq`,
`free_eq`).
-/

namespace Cornet.IoSlot

open List Function

/-! ## The code -/

/-- `io_slot_t`. -/
structure Slot (τ : Type*) where
  task : Option τ := none
  generation : ℕ := 1
  deriving DecidableEq, Repr

/-- A slot nobody has used. -/
def Slot.fresh {τ : Type*} : Slot τ := {}

/-- `encode_slot`. -/
def encodeSlot (index generation : ℕ) : ℕ := generation <<< 32 ||| index

/-- `decode_slot_index`. -/
def decodeSlotIndex (userData : ℕ) : ℕ := userData &&& 0xFFFFFFFF

/-- `decode_slot_generation`. -/
def decodeSlotGeneration (userData : ℕ) : ℕ := (userData >>> 32) % 2 ^ 32

/-- `io_slot_table_t`; the head of `freeList` is what `free_list_.back()` reads. -/
structure Table (τ : Type*) where
  slots : List (Slot τ)
  freeList : List ℕ
  deriving DecidableEq, Repr

variable {τ : Type*}

/-- `io_slot_table_t`, `io_slot_table_t::io_slot_table_t`. -/
def Table.make (capacity : ℕ) : Table τ where
  slots := List.replicate capacity .fresh
  freeList := (List.range capacity).reverse

/-- The doubling at the top of `alloc`; `resize` to fewer slots cuts the vector. -/
def Table.grow (t : Table τ) : Table τ :=
  let oldSize := t.slots.length % 2 ^ 32
  let newSize := oldSize * 2 % 2 ^ 32
  { slots := t.slots.take newSize ++ List.replicate (newSize - t.slots.length) .fresh
    freeList := (List.range' oldSize (newSize - oldSize)).reverse ++ t.freeList }

/-- The table `alloc` pops from. -/
def Table.ready (t : Table τ) : Table τ := if t.freeList.isEmpty then t.grow else t

/-- `none` where the code reads outside a vector: `back()` of an empty free list, or a slot past the
end. -/
def Table.alloc (t : Table τ) (task : τ) : Option (ℕ × Table τ) :=
  match t.ready.freeList with
  | [] => none
  | idx :: rest =>
    t.ready.slots[idx]?.map fun slot =>
      (encodeSlot idx slot.generation,
        { slots := t.ready.slots.set idx { slot with task := some task }, freeList := rest })

/-- `io_slot_table_t::free`. -/
def Table.free (t : Table τ) (userData : ℕ) : Option (Table τ) :=
  let idx := decodeSlotIndex userData
  t.slots[idx]?.map fun slot =>
    { slots := t.slots.set idx { task := none, generation := (slot.generation + 1) % 2 ^ 32 }
      freeList := idx :: t.freeList }

/-- `io_slot_table_t::lookup`. -/
def Table.lookup (t : Table τ) (userData : ℕ) : Option τ :=
  match t.slots[decodeSlotIndex userData]? with
  | none => none
  | some slot => if slot.generation ≠ decodeSlotGeneration userData then none else slot.task

/-! ## Tokens -/

theorem encodeSlot_eq {i : ℕ} (hi : i < 2 ^ 32) (g : ℕ) : encodeSlot i g = g * 2 ^ 32 + i := by
  rw [encodeSlot, Nat.shiftLeft_eq, mul_comm, ← Nat.two_pow_add_eq_or_of_lt hi]

theorem decodeSlotIndex_eq (ud : ℕ) : decodeSlotIndex ud = ud % 2 ^ 32 :=
  Nat.and_two_pow_sub_one_eq_mod ud 32

theorem decodeSlotIndex_lt (ud : ℕ) : decodeSlotIndex ud < 2 ^ 32 := by
  rw [decodeSlotIndex_eq]
  exact Nat.mod_lt _ (by decide)

theorem decodeSlotIndex_encodeSlot {i : ℕ} (hi : i < 2 ^ 32) (g : ℕ) : decodeSlotIndex
    (encodeSlot i g) = i := by
  rw [decodeSlotIndex_eq, encodeSlot_eq hi]
  omega

theorem decodeSlotGeneration_encodeSlot {i g : ℕ} (hi : i < 2 ^ 32) (hg : g < 2 ^ 32) :
    decodeSlotGeneration (encodeSlot i g) = g := by
  rw [decodeSlotGeneration, Nat.shiftRight_eq_div_pow, encodeSlot_eq hi]
  omega

/-- Every 64-bit number is a token. -/
theorem encodeSlot_decode {ud : ℕ} (hud : ud < 2 ^ 64) :
    encodeSlot (decodeSlotIndex ud) (decodeSlotGeneration ud) = ud := by
  rw [encodeSlot_eq (decodeSlotIndex_lt ud), decodeSlotIndex_eq, decodeSlotGeneration,
    Nat.shiftRight_eq_div_pow]
  omega

theorem encodeSlot_inj {i j g g' : ℕ} (hi : i < 2 ^ 32) (hj : j < 2 ^ 32)
    (h : encodeSlot i g = encodeSlot j g') : i = j ∧ g = g' := by
  rw [encodeSlot_eq hi, encodeSlot_eq hj] at h
  omega

theorem encodeSlot_lt {i g : ℕ} (hi : i < 2 ^ 32) (hg : g < 2 ^ 32) : encodeSlot i g < 2 ^ 64 := by
  rw [encodeSlot_eq hi]
  omega

theorem encodeSlot_eq_zero {i g : ℕ} (hi : i < 2 ^ 32) : encodeSlot i g = 0 ↔ i = 0 ∧ g = 0 := by
  rw [encodeSlot_eq hi]
  omega

/-! ## Cells: the table without its size -/

/-- What slot `i` holds, or will hold when the table reaches it. -/
def Table.cell (t : Table τ) (i : ℕ) : Slot τ := t.slots[i]?.getD .fresh

theorem Table.cell_of_le {t : Table τ} {i : ℕ} (hi : t.slots.length ≤ i) : t.cell i = .fresh := by
  rw [cell, getElem?_eq_none hi, Option.getD_none]

theorem Table.slots_getElem? {t : Table τ} {i : ℕ} (hi : i < t.slots.length) : t.slots[i]? = some
    (t.cell i) := by
  rw [cell, getElem?_eq_getElem hi, Option.getD_some]

/-- A lookup reads one cell. -/
theorem Table.lookup_eq (t : Table τ) (ud : ℕ) : t.lookup ud =
    if (t.cell (decodeSlotIndex ud)).generation = decodeSlotGeneration ud then
      (t.cell (decodeSlotIndex ud)).task
    else none := by
  rw [lookup, cell]
  cases t.slots[decodeSlotIndex ud]? with
  | none => exact (ite_self none).symm
  | some slot => simp only [Option.getD_some, ne_eq, ite_not]

/-- The free list holds exactly the indices of the slots without a task, each once. -/
structure Table.Ok (t : Table τ) : Prop where
  pos : 0 < t.slots.length
  lt : t.slots.length < 2 ^ 32
  gen_lt : ∀ i, (t.cell i).generation < 2 ^ 32
  nodup : t.freeList.Nodup
  mem_iff : ∀ {i}, i ∈ t.freeList ↔ i < t.slots.length ∧ (t.cell i).task = none

variable {t : Table τ} {task : τ} {ud i : ℕ}

theorem Table.lt_of_task (hi : (t.cell i).task = some task) : i < t.slots.length := by
  by_contra hc
  rw [cell_of_le (Nat.le_of_not_lt hc)] at hi
  cases hi

theorem cell_make (capacity i : ℕ) : (Table.make capacity : Table τ).cell i = .fresh := by
  rcases Nat.lt_or_ge i capacity with hi | hi
  · simp [Table.cell, Table.make, hi]
  · exact Table.cell_of_le (by simpa [Table.make] using hi)

theorem ok_make {capacity : ℕ} (h₀ : 0 < capacity)
    (hc : capacity < 2 ^ 32) : (Table.make capacity : Table τ).Ok where
  pos := by simpa [Table.make] using h₀
  lt := by simpa [Table.make] using hc
  gen_lt i := by
    rw [cell_make, Slot.fresh]
    norm_num
  nodup := nodup_reverse.mpr nodup_range
  mem_iff {i} := by
    rw [cell_make, Table.make, mem_reverse, mem_range, length_replicate]
    exact (and_iff_left rfl).symm

/-! ### Growth -/

/-- There is a free slot, or doubling makes one: twice the size is still a 32-bit number. -/
def Table.Roomy (t : Table τ) : Prop := t.freeList = [] → t.slots.length < 2 ^ 31

instance : Decidable t.Roomy := inferInstanceAs (Decidable (_ → _))

theorem Table.ready_of_ne (h : t.freeList ≠ []) : t.ready = t := by
  rw [ready, if_neg (by simpa using h)]

theorem Table.ready_of_nil (h : t.freeList = []) : t.ready = t.grow := by
  rw [ready, if_pos (by simpa using h)]

theorem Table.grow_slots (h : t.slots.length < 2 ^ 31) :
    t.grow.slots = t.slots ++ List.replicate t.slots.length .fresh := by
  have hsize : t.slots.length % 2 ^ 32 * 2 % 2 ^ 32 = t.slots.length + t.slots.length := by omega
  rw [grow]
  simp only [hsize, Nat.add_sub_cancel]
  rw [take_of_length_le (Nat.le_add_right _ _)]

theorem Table.grow_freeList (h : t.slots.length < 2 ^ 31) :
    t.grow.freeList = (List.range' t.slots.length t.slots.length).reverse ++ t.freeList := by
  have hold : t.slots.length % 2 ^ 32 = t.slots.length := by omega
  have hsize : t.slots.length * 2 % 2 ^ 32 = t.slots.length + t.slots.length := by omega
  rw [grow]
  simp only [hold, hsize, Nat.add_sub_cancel]

/-- Growth changes no cell. -/
theorem Table.cell_grow (h : t.slots.length < 2 ^ 31) (i : ℕ) : t.grow.cell i = t.cell i := by
  rcases Nat.lt_or_ge i t.slots.length with hi | hi
  · rw [cell, cell, grow_slots h, getElem?_append_left hi]
  · rw [cell_of_le hi, cell, grow_slots h, getElem?_append_right hi, getElem?_replicate]
    split_ifs <;> rfl

theorem Table.Ok.grow (h : t.Ok) (hsize : t.slots.length < 2 ^ 31) : t.grow.Ok where
  pos := by
    rw [Table.grow_slots hsize, length_append]
    exact Nat.add_pos_left h.pos _
  lt := by
    rw [Table.grow_slots hsize, length_append, length_replicate]
    omega
  gen_lt i := by
    rw [Table.cell_grow hsize]
    exact h.gen_lt i
  nodup := by
    rw [Table.grow_freeList hsize, nodup_append']
    refine ⟨nodup_reverse.mpr nodup_range', h.nodup, ?_⟩
    intro i hi hmem
    rw [mem_reverse, mem_range'_1] at hi
    exact Nat.lt_irrefl _ (hi.1.trans_lt (h.mem_iff.mp hmem).1)
  mem_iff {i} := by
    rw [Table.grow_freeList hsize, Table.cell_grow hsize, Table.grow_slots hsize, mem_append,
      mem_reverse,
      mem_range'_1, h.mem_iff, length_append, length_replicate]
    constructor
    · rintro (⟨hle, hlt⟩ | ⟨hlt, htask⟩)
      · exact ⟨hlt, congrArg Slot.task (Table.cell_of_le hle)⟩
      · exact ⟨by omega, htask⟩
    · rintro ⟨hlt, htask⟩
      rcases Nat.lt_or_ge i t.slots.length with hi | hi
      · exact .inr ⟨hi, htask⟩
      · exact .inl ⟨hi, hlt⟩

theorem Table.Ok.ready (h : t.Ok) (hroom : t.Roomy) : t.ready.Ok := by
  by_cases hnil : t.freeList = []
  · rw [Table.ready_of_nil hnil]
    exact h.grow (hroom hnil)
  · rwa [Table.ready_of_ne hnil]

theorem Table.cell_ready (hroom : t.Roomy) (i : ℕ) : t.ready.cell i = t.cell i := by
  by_cases hnil : t.freeList = []
  · rw [Table.ready_of_nil hnil, Table.cell_grow (hroom hnil)]
  · rw [Table.ready_of_ne hnil]

/-- The slot the next `alloc` takes. -/
def Table.next? (t : Table τ) : Option ℕ := t.ready.freeList.head?

/-- After growth there is a slot to take. -/
theorem Table.Ok.exists_next (h : t.Ok) (hroom : t.Roomy) : ∃ i rest,
    t.ready.freeList = i :: rest := by
  refine exists_cons_of_ne_nil ?_
  by_cases hnil : t.freeList = []
  · have hpos := h.pos
    rw [Table.ready_of_nil hnil, Table.grow_freeList (hroom hnil)]
    refine append_ne_nil_of_left_ne_nil ?_ _
    rw [ne_eq, reverse_eq_nil_iff, List.range'_eq_nil_iff]
    omega
  · rwa [Table.ready_of_ne hnil]

/-- A table with 2³¹ slots or more cannot double: twice its size wraps to no more than it has. -/
theorem Table.Ok.alloc_eq_none (h : t.Ok) (hroom : ¬ t.Roomy) (task : τ) : t.alloc task = none := by
  obtain ⟨hnil, hsize⟩ : t.freeList = [] ∧ 2 ^ 31 ≤ t.slots.length :=
    by simpa [Table.Roomy] using hroom
  have hlt := h.lt
  have hwrap : t.slots.length % 2 ^ 32 * 2 % 2 ^ 32 - t.slots.length % 2 ^ 32 = 0 := by omega
  have hempty : t.ready.freeList = [] := by
    rw [Table.ready_of_nil hnil, Table.grow]
    simp only [hwrap, hnil, List.range'_zero, reverse_nil, append_nil]
  rw [Table.alloc, hempty]

/-! ### `alloc` and `free` update one cell -/

theorem Table.cell_set {s : Slot τ} (hi : i < t.slots.length) (l : List ℕ) :
    Table.cell { slots := t.slots.set i s, freeList := l } = Function.update t.cell i s := by
  funext j
  simp only [cell, getElem?_set, update_apply]
  by_cases hij : i = j
  · subst hij
    rw [if_pos rfl, if_pos rfl, if_pos hi, Option.getD_some]
  · rw [if_neg hij, if_neg (Ne.symm hij)]

/-- **What `alloc` does**: it takes a slot without a task and gives it one; the token is the slot's
index and generation. -/
theorem Table.Ok.alloc_eq (h : t.Ok) (hroom : t.Roomy) (task : τ) : ∃ i t', t.next? = some i ∧
    i < 2 ^ 32 ∧
    (t.cell i).task = none ∧ t.alloc task = some (encodeSlot i (t.cell i).generation, t') ∧ t'.Ok ∧
    t'.cell = Function.update t.cell i { t.cell i with task := some task } := by
  obtain ⟨i, rest, hnext⟩ := h.exists_next hroom
  have hready := h.ready hroom
  have hnodup : i ∉ rest ∧ rest.Nodup := by
    have := hready.nodup
    rwa [hnext, nodup_cons] at this
  obtain ⟨hi, hfree⟩ := hready.mem_iff.mp (hnext ▸ mem_cons_self)
  have hcells : t.ready.cell = t.cell := funext (Table.cell_ready hroom)
  rw [hcells] at hfree
  have hset := Table.cell_set (s := { t.cell i with task := some task }) hi rest
  rw [hcells] at hset
  refine ⟨i, ⟨t.ready.slots.set i { t.cell i with task := some task }, rest⟩, ?_,
    hi.trans hready.lt, hfree, ?_, ?_, hset⟩
  · rw [Table.next?, hnext, head?_cons]
  · simp only [Table.alloc, hnext, Table.slots_getElem? hi, hcells, Option.map_some]
  · refine ⟨by simpa using hready.pos, by simpa using hready.lt, fun j => ?_, hnodup.2, fun {j} => ?_⟩
    · rw [hset, update_apply]
      split_ifs
      · exact h.gen_lt i
      · exact h.gen_lt j
    · rw [hset, update_apply, length_set]
      have hmem : j ∈ rest ↔ j ≠ i ∧ j ∈ t.ready.freeList := by
        rw [hnext, mem_cons]
        constructor
        · intro hj
          exact ⟨fun hji => hnodup.1 (hji ▸ hj), .inr hj⟩
        · rintro ⟨hji, hj | hj⟩
          · exact absurd hj hji
          · exact hj
      rw [hmem, hready.mem_iff, hcells]
      split_ifs with hji <;> simp [hji]

/-- **What `free` does** to a slot in use: the task goes, the generation counts up. -/
theorem Table.Ok.free_eq (h : t.Ok) (hi : i < 2 ^ 32) (htask : (t.cell i).task = some task)
    (g : ℕ) :
    ∃ t', t.free (encodeSlot i g) = some t' ∧ t'.Ok ∧
      t'.cell = Function.update t.cell i
        { task := none, generation := ((t.cell i).generation + 1) % 2 ^ 32 } := by
  have hlen := Table.lt_of_task htask
  have hset := Table.cell_set
    (s := { task := none, generation := ((t.cell i).generation + 1) % 2 ^ 32 }) hlen
    (i :: t.freeList)
  refine ⟨_, ?_, ?_, hset⟩
  · simp only [Table.free, decodeSlotIndex_encodeSlot hi, Table.slots_getElem? hlen,
      Option.map_some]
  · refine ⟨by simpa using h.pos, by simpa using h.lt, fun j => ?_, nodup_cons.mpr ⟨?_, h.nodup⟩, fun {j} => ?_⟩
    · rw [hset, update_apply]
      split_ifs
      · exact Nat.mod_lt _ (by decide)
      · exact h.gen_lt j
    · rw [h.mem_iff, htask]
      rintro ⟨-, ⟨⟩⟩
    · rw [hset, update_apply, length_set, mem_cons, h.mem_iff]
      split_ifs with hji
      · simp [hji, hlen]
      · simp [hji]

/-- A token finds the task of the cell it names, while that cell has the token's generation. -/
theorem Table.Ok.lookup_iff (h : t.Ok) (hud : ud < 2 ^ 64) : t.lookup ud = some task ↔
    ∃ i < 2 ^ 32, ud = encodeSlot i (t.cell i).generation ∧ (t.cell i).task = some task := by
  rw [Table.lookup_eq]
  constructor
  · intro hl
    split_ifs at hl with hg
    refine ⟨decodeSlotIndex ud, decodeSlotIndex_lt ud, ?_, hl⟩
    rw [hg, encodeSlot_decode hud]
  · rintro ⟨i, hi, rfl, htask⟩
    rw [decodeSlotIndex_encodeSlot hi, decodeSlotGeneration_encodeSlot hi (h.gen_lt i), if_pos rfl,
      htask]

/-! ## The table as a map from tokens -/

/-- A new task in one cell changes what one token finds, if the cell's generation stays or its task
goes. -/
theorem Table.Ok.lookup_update {t' : Table τ} {c : Slot τ} (h : t.Ok) (hi : i < 2 ^ 32)
    (hcell : t'.cell = Function.update t.cell i c)
      (hc : c.task = none ∨ c.generation = (t.cell i).generation)
    (hud : ud < 2 ^ 64) :
    t'.lookup ud = if ud = encodeSlot i (t.cell i).generation then c.task else t.lookup ud := by
  by_cases hui : decodeSlotIndex ud = i
  · have hiff : ud = encodeSlot i (t.cell i).generation ↔
      (t.cell i).generation = decodeSlotGeneration ud := by
      constructor
      · rintro rfl
        rw [decodeSlotGeneration_encodeSlot hi (h.gen_lt i)]
      · intro hg
        rw [hg, ← hui, encodeSlot_decode hud]
    rw [Table.lookup_eq, Table.lookup_eq, hcell, hui, update_self, if_congr hiff rfl rfl]
    rcases hc with hc | hc
    · rw [hc]
      split_ifs <;> rfl
    · rw [hc]
      split_ifs <;> rfl
  · have hne : ud ≠ encodeSlot i (t.cell i).generation := by
      rintro rfl
      exact hui (decodeSlotIndex_encodeSlot hi _)
    rw [if_neg hne, Table.lookup_eq, Table.lookup_eq, hcell, update_of_ne hui]

/-- `alloc` adds a token that found nothing. -/
theorem Table.Ok.lookup_alloc (h : t.Ok) (hroom : t.Roomy) (task : τ) : ∃ tok t',
    t.alloc task = some (tok, t') ∧
    t'.Ok ∧ tok < 2 ^ 64 ∧ ∀ ud < 2 ^ 64, t'.lookup ud = if ud = tok then some task
      else t.lookup ud := by
  obtain ⟨i, t', -, hi, -, halloc, hok, hcell⟩ := h.alloc_eq hroom task
  exact ⟨_, t', halloc, hok, encodeSlot_lt hi (h.gen_lt i), fun ud hud => h.lookup_update hi hcell
    (.inr rfl) hud⟩

/-- `free` takes a live token out. -/
theorem Table.Ok.lookup_free (h : t.Ok) (hud : ud < 2 ^ 64) (hlive : t.lookup ud = some task) :
    ∃ t', t.free ud = some t' ∧ t'.Ok ∧ ∀ ud' < 2 ^ 64, t'.lookup ud' = if ud' = ud then none
      else t.lookup ud' := by
  obtain ⟨i, hi, rfl, htask⟩ := (h.lookup_iff hud).mp hlive
  obtain ⟨t', hfree, hok, hcell⟩ := h.free_eq hi htask (t.cell i).generation
  exact ⟨t', hfree, hok, fun ud' hud' => h.lookup_update hi hcell (.inl rfl) hud'⟩

/-- There are no more live tokens than slots. -/
theorem Table.Ok.length_le {l : List ℕ} (h : t.Ok) (hl : l.Nodup)
    (hlive : ∀ ud ∈ l, ud < 2 ^ 64 ∧ ∃ task, t.lookup ud = some task) : l.length ≤
      t.slots.length := by
  have hspec : ∀ ud ∈ l, ∃ i < t.slots.length, i < 2 ^ 32 ∧ ud = encodeSlot i
    (t.cell i).generation := by
    intro ud hmem
    obtain ⟨hud, task, hlook⟩ := hlive ud hmem
    obtain ⟨i, hi, he, htask⟩ := (h.lookup_iff hud).mp hlook
    exact ⟨i, Table.lt_of_task htask, hi, he⟩
  have hinj : (l.map decodeSlotIndex).Nodup := by
    refine (nodup_map_iff_inj_on hl).mpr fun ud hmem ud' hmem' he => ?_
    obtain ⟨i, -, hi, rfl⟩ := hspec ud hmem
    obtain ⟨j, -, hj, rfl⟩ := hspec ud' hmem'
    rw [decodeSlotIndex_encodeSlot hi, decodeSlotIndex_encodeSlot hj] at he
    rw [he]
  have hsub : l.map decodeSlotIndex ⊆ List.range t.slots.length := by
    intro j hj
    obtain ⟨ud, hmem, rfl⟩ := mem_map.mp hj
    obtain ⟨i, hlt, hi, rfl⟩ := hspec ud hmem
    rwa [decodeSlotIndex_encodeSlot hi, mem_range]
  simpa using (subperm_of_subset hinj hsub).length_le

end Cornet.IoSlot
