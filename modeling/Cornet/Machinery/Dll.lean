import Mathlib.Tactic

/-!
# Machinery/Dll — doubly linked lists threaded through a store

    x ──▸ b₁ ⇄ b₂ ⇄ ⋯ ⇄ bₙ            `next` runs right, `prev` runs left, both end in `none`

`Dll next prev x l` says that the pointer `x` heads the list `l`: no node occurs twice, and the two
links of a node name its neighbours.  One direction is `Follows`; the other is `Follows` of the
reversed list, so every operation is proved once.  `Dll.push` and `Dll.remove` are stated for any
pair of links that has the right values **on the list**: what a program writes to other nodes is its
own business.  A `Dlq` keeps a pointer to its last node as well.
-/

namespace Cornet

open List

variable {β : Type*} {next prev next' prev' : β → Option β} {x x' : Option β} {b : β}

/-- Each node's link names the node after it. -/
def Follows (next : β → Option β) : List β → Prop
  | [] => True
  | b :: l => next b = l.head? ∧ Follows next l

theorem Follows.congr : ∀ {l : List β}, Follows next l → (∀ b ∈ l, next' b = next b) →
    Follows next' l
  | [], _, _ => trivial
  | b :: _, h, hnext =>
      ⟨(hnext b mem_cons_self).trans h.1, h.2.congr fun m hm => hnext m (mem_cons_of_mem _ hm)⟩

theorem Follows.next_eq : ∀ {a c : List β}, Follows next (a ++ b :: c) → next b = c.head?
  | [], _, h => h.1
  | _ :: _, _, h => h.2.next_eq

section

variable [DecidableEq β]

/-- Linking a node behind the list. -/
theorem Follows.snoc : ∀ {l : List β}, l.Nodup → Follows next l → next' b = none →
    (∀ m ∈ l, next' m = if l.getLast? = some m then some b else next m) → Follows next' (l ++ [b])
  | [], _, _, hb, _ => ⟨hb, trivial⟩
  | [d], _, _, hb, hnext => ⟨by simpa using hnext d, hb, trivial⟩
  | d :: e :: l, hnd, h, hb, hnext => by
      have hd : (e :: l).getLast? ≠ some d := fun hl =>
        (nodup_cons.mp hnd).1 (mem_of_getLast? hl)
      refine ⟨?_, h.2.snoc (nodup_cons.mp hnd).2 hb fun m hm => ?_⟩
      · rw [hnext d mem_cons_self, getLast?_cons_cons, if_neg hd, h.1]
        rfl
      · rw [hnext m (mem_cons_of_mem _ hm), getLast?_cons_cons]

/-- Taking a node out: the node before it inherits its link. -/
theorem Follows.remove : ∀ {a c : List β}, (a ++ c).Nodup → Follows next (a ++ b :: c) →
    (∀ m ∈ a ++ c, next' m = if a.getLast? = some m then next b else next m) →
      Follows next' (a ++ c)
  | [], _, _, h, hnext => h.2.congr hnext
  | [d], c, hnd, h, hnext => by
      refine ⟨?_, h.2.2.congr fun m hm => ?_⟩
      · rw [hnext d mem_cons_self, getLast?_singleton, if_pos rfl, h.2.1]
        rfl
      · have hne : d ≠ m := by
          rintro rfl
          exact (nodup_cons.mp hnd).1 hm
        rw [hnext m (mem_cons_of_mem _ hm), if_neg (by simpa using hne)]
  | d :: e :: a, c, hnd, h, hnext => by
      have hd : (e :: a).getLast? ≠ some d := fun hl =>
        (nodup_cons.mp hnd).1 (mem_append_left _ (mem_of_getLast? hl))
      refine ⟨?_, Follows.remove (nodup_cons.mp hnd).2 h.2 fun m hm => ?_⟩
      · rw [hnext d mem_cons_self, getLast?_cons_cons, if_neg hd, h.1]
        rfl
      · rw [hnext m (mem_cons_of_mem _ hm), getLast?_cons_cons]

end

/-! ## Both directions -/

/-- The list a head pointer leads to, and its links. -/
structure Dll (next prev : β → Option β) (x : Option β) (l : List β) : Prop where
  head_eq : x = l.head?
  nodup : l.Nodup
  right : Follows next l
  left : Follows prev l.reverse

variable {l a c : List β}

theorem dll_nil : Dll next prev none ([] : List β) := ⟨rfl, .nil, trivial, trivial⟩

/-- **The frame rule**: only the links of the list's own nodes matter. -/
theorem Dll.congr (h : Dll next prev x l) (hnext : ∀ b ∈ l, next' b = next b)
    (hprev : ∀ b ∈ l, prev' b = prev b) : Dll next' prev' x l :=
  ⟨h.head_eq, h.nodup, h.right.congr hnext, h.left.congr fun b hb => hprev b (mem_reverse.mp hb)⟩

theorem Dll.next_eq (h : Dll next prev x (a ++ b :: c)) : next b = c.head? := h.right.next_eq

theorem Dll.left_append (h : Dll next prev x (a ++ b :: c)) : Follows prev
    (c.reverse ++ b :: a.reverse) := by
  simpa using h.left

theorem Dll.prev_eq (h : Dll next prev x (a ++ b :: c)) : prev b = a.getLast? := by
  rw [h.left_append.next_eq, head?_reverse]

theorem Dll.next_mem {m : β} (h : Dll next prev x l) (hb : b ∈ l) (hm : next b = some m) : m ∈
    l := by
  obtain ⟨a, c, rfl⟩ := append_of_mem hb
  rw [h.next_eq] at hm
  exact mem_append_right _ (mem_cons_of_mem _ (mem_of_mem_head? hm))

theorem Dll.prev_mem {m : β} (h : Dll next prev x l) (hb : b ∈ l) (hm : prev b = some m) : m ∈
    l := by
  obtain ⟨a, c, rfl⟩ := append_of_mem hb
  rw [h.prev_eq] at hm
  exact mem_append_left _ (mem_of_getLast? hm)

section

variable [DecidableEq β]

/-- Linking a node in front of the list. -/
theorem Dll.push (h : Dll next prev x l) (hb : b ∉ l) (hnext : next' b = x) (hprev : prev' b = none)
    (hnexts : ∀ m ∈ l, next' m = next m)
    (hprevs : ∀ m ∈ l, prev' m = if x = some m then some b else prev m) :
    Dll next' prev' (some b) (b :: l) where
  head_eq := rfl
  nodup := nodup_cons.mpr ⟨hb, h.nodup⟩
  right := ⟨hnext.trans h.head_eq, h.right.congr hnexts⟩
  left := by
    rw [reverse_cons]
    refine h.left.snoc (nodup_reverse.mpr h.nodup) hprev fun m hm => ?_
    rw [hprevs m (mem_reverse.mp hm), getLast?_reverse, h.head_eq]

/-- Linking a node behind the list. -/
theorem Dll.snoc (h : Dll next prev x l) (hb : b ∉ l) (hnext : next' b = none)
    (hprev : prev' b = l.getLast?)
    (hnexts : ∀ m ∈ l, next' m = if l.getLast? = some m then some b else next m)
    (hprevs : ∀ m ∈ l, prev' m = prev m) (hx : x' = if l = [] then some b else x) :
    Dll next' prev' x' (l ++ [b]) where
  head_eq := by
    rw [hx, h.head_eq]
    cases l <;> simp
  nodup := nodup_append.mpr ⟨h.nodup, nodup_singleton b, by
    rintro m hm _ hb' rfl
    exact hb (mem_singleton.mp hb' ▸ hm)⟩
  right := h.right.snoc h.nodup hnext hnexts
  left := by
    rw [reverse_append]
    exact ⟨hprev.trans head?_reverse.symm, h.left.congr fun m hm => hprevs m (mem_reverse.mp hm)⟩

theorem Dll.erase_eq (h : Dll next prev x (a ++ b :: c)) : (a ++ b :: c).erase b = a ++ c := by
  rw [erase_append_right _ fun ha => disjoint_of_nodup_append h.nodup ha mem_cons_self,
    erase_cons_head]

/-- Taking a node out of the list: its neighbours are linked to each other, and the head moves when
the node was the first. -/
theorem Dll.remove (h : Dll next prev x l) (hb : b ∈ l)
    (hnexts : ∀ m, m ≠ b → next' m = if prev b = some m then next b else next m)
    (hprevs : ∀ m, m ≠ b → prev' m = if next b = some m then prev b else prev m)
    (hx : x' = if prev b = none then next b else x) : Dll next' prev' x' (l.erase b) := by
  obtain ⟨a, c, rfl⟩ := append_of_mem hb
  obtain ⟨hbac, hnd⟩ := nodup_cons.mp (nodup_middle.mp h.nodup)
  have hne {m : β} (hm : m ∈ a ++ c) : m ≠ b := by
    rintro rfl
    exact hbac hm
  rw [h.erase_eq]
  refine ⟨?_, hnd, h.right.remove hnd fun m hm => ?_, ?_⟩
  · rw [hx, h.next_eq, h.prev_eq, h.head_eq]
    cases a <;> simp
  · rw [hnexts m (hne hm), h.prev_eq]
  · rw [reverse_append]
    refine h.left_append.remove ?_ fun m hm => ?_
    · rw [← reverse_append]
      exact nodup_reverse.mpr hnd
    · rw [hprevs m (hne (by simpa [or_comm] using hm)), getLast?_reverse, h.next_eq]

/-! ## Families of lists -/

section

variable {ι : Type*} [DecidableEq ι] {xs : ι → Option β} {L : ι → List β} {i j : ι}

/-- A node is linked in front of one list of many. -/
theorem dlls_push (h : ∀ i, Dll next prev (xs i) (L i))
    (hdisj : ∀ {m i j}, m ∈ L i → m ∈ L j → i = j)
    (hb : ∀ j, b ∉ L j) (hnext : next' b = xs i) (hprev : prev' b = none)
    (hnexts : ∀ m, m ≠ b → next' m = next m)
    (hprevs : ∀ m, m ≠ b → prev' m = if xs i = some m then some b else prev m)
    (hx : x' = if j = i then some b else xs j) : Dll next' prev' x'
      (Function.update L i (b :: L i) j) := by
  have hne {m : β} (hm : m ∈ L j) : m ≠ b := by
    rintro rfl
    exact hb j hm
  rw [hx]
  by_cases hj : j = i
  · subst hj
    rw [if_pos rfl, Function.update_self]
    exact (h j).push (hb j) hnext hprev (fun m hm => hnexts m (hne hm)) fun m hm =>
      hprevs m (hne hm)
  · rw [if_neg hj, Function.update_of_ne hj]
    refine (h j).congr (fun m hm => hnexts m (hne hm)) fun m hm => (hprevs m (hne hm)).trans
      (if_neg fun hm' => ?_)
    exact hj (hdisj hm (mem_of_mem_head? ((h i).head_eq ▸ hm')))

/-- A node is taken out of the one that it is on. -/
theorem dlls_remove (h : ∀ i, Dll next prev (xs i) (L i))
    (hdisj : ∀ {m i j}, m ∈ L i → m ∈ L j → i = j)
    (hb : b ∈ L i) (hnexts : ∀ m, m ≠ b → next' m = if prev b = some m then next b else next m)
    (hprevs : ∀ m, m ≠ b → prev' m = if next b = some m then prev b else prev m)
    (hx : x' = if j = i ∧ prev b = none then next b else xs j) : Dll next' prev' x'
      ((L j).erase b) := by
  rw [hx]
  by_cases hj : j = i
  · subst hj
    exact (h j).remove hb hnexts hprevs (by simp)
  · have hbj : b ∉ L j := fun hm => hj (hdisj hm hb)
    have hne {m : β} (hm : m ∈ L j) : m ≠ b := by
      rintro rfl
      exact hbj hm
    rw [erase_of_not_mem hbj, if_neg fun hc => hj hc.1]
    -- the neighbours of the node are on its own list
    refine (h j).congr (fun m hm => ?_) fun m hm => ?_
    · rw [hnexts m (hne hm), if_neg fun hp => hj (hdisj hm ((h i).prev_mem hb hp))]
    · rw [hprevs m (hne hm), if_neg fun hp => hj (hdisj hm ((h i).next_mem hb hp))]

end

/-! ## Queues -/

/-- A list with a pointer to either end. -/
structure Dlq (next prev : β → Option β) (x y : Option β) (l : List β) : Prop extends Dll next prev
    x l where
  tail_eq : y = l.getLast?

variable {y y' : Option β}

omit [DecidableEq β] in
theorem dlq_nil : Dlq next prev none none ([] : List β) := ⟨dll_nil, rfl⟩

/-- A node joins at the tail. -/
theorem Dlq.snoc (h : Dlq next prev x y l) (hb : b ∉ l) (hnext : next' b = none)
    (hprev : prev' b = y)
    (hnexts : ∀ m ∈ l, next' m = if y = some m then some b else next m)
      (hprevs : ∀ m ∈ l, prev' m = prev m)
    (hx : x' = if y = none then some b else x) : Dlq next' prev' x' (some b) (l ++ [b]) := by
  have hnil : y = none ↔ l = [] := by rw [h.tail_eq, getLast?_eq_none_iff]
  refine ⟨h.toDll.snoc hb hnext (hprev.trans h.tail_eq) (fun m hm => ?_) hprevs ?_,
    getLast?_concat.symm⟩
  · rw [hnexts m hm, h.tail_eq]
  · rw [hx]
    exact if_congr hnil rfl rfl

/-- A node leaves, from wherever it stands. -/
theorem Dlq.remove (h : Dlq next prev x y l) (hb : b ∈ l)
    (hnexts : ∀ m, m ≠ b → next' m = if prev b = some m then next b else next m)
    (hprevs : ∀ m, m ≠ b → prev' m = if next b = some m then prev b else prev m)
    (hx : x' = if prev b = none then next b else x)
      (hy : y' = if next b = none then prev b else y) :
    Dlq next' prev' x' y' (l.erase b) := by
  refine ⟨h.toDll.remove hb hnexts hprevs hx, ?_⟩
  obtain ⟨a, c, rfl⟩ := append_of_mem hb
  rw [hy, h.next_eq, h.prev_eq, h.tail_eq, h.erase_eq]
  cases c <;> simp

end

end Cornet
