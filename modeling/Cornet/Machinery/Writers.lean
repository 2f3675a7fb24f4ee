import Cornet.Machinery.Run

/-!
# Machinery/Writers — several writers on one stream that takes frames in pieces

    i:  |▓▓▓▓▓░░░|      j:  |░░░░|      ▸      out = |████|██████|▓▓▓▓▓

Each writer has at most one frame under way, of which some bytes are out; the stream takes as many
bytes at a time as it likes.  Frames stay whole if a frame is started only while no other is partly
out, and cut only while no other is under way (`Exclusive`): then what is out is a prefix of a
concatenation of frames that were started, each used at most once (`Sound.atomic`).
-/

namespace Cornet

open List Function

/-- The frame each writer has under way with the bytes of it that are out, the stream, the frames
started so far, and whether a frame was given up part-way. -/
structure Writers (ι β : Type*) where
  progress : ι → Option (List β × ℕ)
  out : List β
  started : List (List β)
  broken : Bool

namespace Writers

variable {ι β : Type*} [DecidableEq ι]

inductive Move (ι β : Type*)
  | start (i : ι) (f : List β)
  | wrote (i : ι) (w : ℕ)
  | failed (i : ι)

/-- The frame with more of its bytes out, unless that is all of them. -/
def left (f : List β) (d : ℕ) : Option (List β × ℕ) := if d < f.length then some (f, d) else none

/-- One move: a frame is started, some bytes of it are taken, or it is given up. -/
inductive Step (m : Writers ι β) : Move ι β → Writers ι β → Prop
  | start {i : ι} {f : List β} (hi : m.progress i = none) (hf : f ≠ []) :
      Step m (.start i f)
        { m with progress := Function.update m.progress i (some (f, 0)), started := m.started ++
                   [f] }
  | wrote {i : ι} {f : List β} {d w : ℕ} (hi : m.progress i = some (f, d)) (hw : d + w ≤ f.length) :
      Step m (.wrote i w)
        { m with
          progress := Function.update m.progress i (left f (d + w))
          out := m.out ++ (f.drop d).take w }
  | failed {i : ι} {f : List β} {d : ℕ} (hi : m.progress i = some (f, d)) :
      Step m (.failed i)
        { m with progress := Function.update m.progress i none, broken := m.broken || d != 0 }

/-- Some bytes of the frame are out, and some not. -/
def partly : Option (List β × ℕ) → Bool
  | some (_, d) => d != 0
  | none => false

/-- A frame is started only while no other is partly out and none was given up, and cut only while
no other is under way. -/
def Exclusive (m : Writers ι β) : Move ι β → Prop
  | .start i _ => (∀ j, j ≠ i → partly (m.progress j) = false) ∧ m.broken = false
  | .wrote i w => ∀ f d, m.progress i = some (f, d) → d + w < f.length →
      ∀ j, j ≠ i → m.progress j = none
  | .failed _ => True

/-- The stream is a prefix of a concatenation of started frames, each used at most once. -/
def Atomic (m : Writers ι β) : Prop :=
  ∃ fs : List (List β), fs.Subperm m.started ∧ m.out <+: fs.flatten

variable [Fintype ι]

/-- The frame under way, if any. -/
def frame (p : Option (List β × ℕ)) : Multiset (List β) := p.elim 0 fun p => {p.1}

/-- The frames under way. -/
def total (progress : ι → Option (List β × ℕ)) : Multiset (List β) := ∑ i, frame (progress i)

theorem total_eq (progress : ι → Option (List β × ℕ)) (i : ι) :
    total progress = frame (progress i) + ∑ j ∈ Finset.univ.erase i, frame (progress j) :=
  (Finset.add_sum_erase _ _ (Finset.mem_univ i)).symm

theorem total_update (progress : ι → Option (List β × ℕ)) (i : ι) (p : Option (List β × ℕ)) :
    total (Function.update progress i p) =
      frame p + ∑ j ∈ Finset.univ.erase i, frame (progress j) := by
  rw [total_eq _ i, update_self]
  refine congrArg (frame p + ·) (Finset.sum_congr rfl fun j hj => ?_)
  rw [update_of_ne (Finset.ne_of_mem_erase hj)]

/-- The stream is whole frames and what is out of a frame that is partly out. -/
def Whole (m : Writers ι β) : Prop :=
  ∃ fs part, m.out = List.flatten fs ++ part ∧
    (fs : Multiset (List β)) + total m.progress ≤ (m.started : Multiset (List β)) ∧
    (∀ i f d, m.progress i = some (f, d) → d ≠ 0 → part = f.take d) ∧
    ((∀ i, partly (m.progress i) = false) → part = [])

/-- What holds along every run that keeps frames apart. -/
structure Sound (m : Writers ι β) : Prop where
  lt : ∀ i f d, m.progress i = some (f, d) → d < f.length
  alone : ∀ i j, partly (m.progress i) = true → j ≠ i → m.progress j = none
  halted : m.broken = true → (∀ i, m.progress i = none) ∧ m.Atomic
  whole : m.broken = false → m.Whole

variable {m n : Writers ι β} {i : ι} {f : List β} {d w : ℕ}

/-- **Frames stay whole.** -/
theorem Sound.atomic (h : m.Sound) : m.Atomic := by
  cases hb : m.broken with
  | true => exact (h.halted hb).2
  | false =>
    obtain ⟨fs, part, hout, hle, hpart, hnone⟩ := h.whole hb
    by_cases hall : ∀ i, partly (m.progress i) = false
    · refine ⟨fs, Multiset.coe_le.mp ((Multiset.le_add_right _ _).trans hle), ?_⟩
      rw [hout, hnone hall, append_nil]
    · push Not at hall
      obtain ⟨i, hi⟩ := hall
      obtain ⟨f, d, hp, hd⟩ : ∃ f d, m.progress i = some (f, d) ∧ d ≠ 0 := by
        match hp : m.progress i with
        | none => exact (hi (by rw [hp]; rfl)).elim
        | some (f, d) => exact ⟨f, d, rfl, fun hd => hi (by rw [hp, hd]; rfl)⟩
      refine ⟨fs ++ [f], ?_, ?_⟩
      · refine Multiset.coe_le.mp (le_trans ?_ hle)
        rw [← Multiset.coe_add, total_eq _ i, hp]
        exact add_le_add_right (Multiset.le_add_right _ _) _
      · rw [hout, hpart i f d hp hd, flatten_append, flatten_singleton]
        exact (prefix_append_right_inj _).mpr ( take_prefix d f)

omit [DecidableEq ι] in
/-- While a writer has a frame under way, no other is partly out. -/
theorem Sound.others (h : m.Sound) (hi : m.progress i = some (f, d)) (j : ι) (hj : j ≠ i) :
    partly (m.progress j) = false := by
  by_contra hp
  rw [h.alone j i (by simpa using hp) hj.symm] at hi
  cases hi

omit [DecidableEq ι] in
theorem Sound.not_broken (h : m.Sound) (hi : m.progress i = some (f, d)) : m.broken = false := by
  by_contra hb
  rw [(h.halted (by simpa using hb)).1 i] at hi
  cases hi

/-- The stream ends in what is out of any frame under way. -/
theorem Sound.part_eq (h : m.Sound) {part : List β}
    (hpart : ∀ i f d, m.progress i = some (f, d) → d ≠ 0 → part = f.take d)
    (hnone : (∀ i, partly (m.progress i) = false) → part = []) (hi : m.progress i = some (f, d)) :
    part = f.take d := by
  rcases d with _ | d
  · refine hnone fun j => ?_
    by_cases hj : j = i
    · rw [hj, hi]
      rfl
    · exact h.others hi j hj
  · exact hpart i f _ hi d.succ_ne_zero

/-! ## Moves

After a move at `i` no other writer is partly out, so only `i` is looked at. -/

section

variable {progress : ι → Option (List β × ℕ)} {p : Option (List β × ℕ)}

omit [Fintype ι]

theorem forall_lt_update (h : ∀ i f d, progress i = some (f, d) → d < f.length)
    (hp : ∀ f d, p = some (f, d) → d < f.length) :
    ∀ j f d, Function.update progress i p j = some (f, d) → d < f.length :=
  (forall_update_iff progress
    (fun _ (p : Option (List β × ℕ)) => ∀ f d, p = some (f, d) → d < f.length)).mpr
    ⟨hp, fun j _ => h j⟩

theorem partly_update (hothers : ∀ j, j ≠ i → partly (progress j) = false) {j : ι}
    (hj : partly (Function.update progress i p j) = true) : j = i ∧ partly p = true := by
  by_cases hij : j = i
  · subst hij
    rw [update_self] at hj
    exact ⟨rfl, hj⟩
  · rw [update_of_ne hij, hothers j hij] at hj
    cases hj

theorem eq_of_update (hothers : ∀ j, j ≠ i → partly (progress j) = false) {j : ι}
    (hj : Function.update progress i p j = some (f, d)) (hd : d ≠ 0) : p = some (f, d) := by
  have hpartly : partly (Function.update progress i p j) = true := by
    rw [hj]
    simpa [partly] using hd
  obtain ⟨rfl, -⟩ := partly_update hothers hpartly
  rwa [update_self] at hj

end

/-- **A frame is started** while nothing is partly out. -/
theorem Sound.start (h : m.Sound) (hi : m.progress i = none) (hf : f ≠ [])
    (hothers : ∀ j, j ≠ i → partly (m.progress j) = false) (hb : m.broken = false) :
    Sound { m with progress := Function.update m.progress i (some (f, 0)),
                   started := m.started ++ [f] } := by
  obtain ⟨fs, part, hout, hle, -, hnone⟩ := h.whole hb
  refine ⟨forall_lt_update h.lt ?_, fun j _ hj => ?_, fun hb' => ?_,
    fun _ => ⟨fs, [], ?_, ?_, fun j f' d hj hd => ?_, fun _ => rfl⟩⟩
  · rintro _ _ ⟨⟩
    exact length_pos_of_ne_nil hf
  · cases (partly_update hothers hj).2
  · cases hb.symm.trans hb'
  · rw [hout, hnone fun j => ?_]
    by_cases hij : j = i
    · rw [hij, hi]
      rfl
    · exact hothers j hij
  · change (fs : Multiset (List β)) + total (Function.update _ _ _) ≤
      ((m.started ++ [f] : List (List β)) : Multiset (List β))
    rw [total_eq _ i, hi, frame, Option.elim_none, zero_add] at hle
    rw [total_update, ← Multiset.coe_add, add_left_comm, add_comm, Multiset.coe_singleton]
    exact add_le_add_left hle _
  · cases eq_of_update hothers hj hd
    exact (hd rfl).elim

/-- **Bytes are taken**: all that is left of a frame, or a part while no other is under way. -/
theorem Sound.wrote (h : m.Sound) (hi : m.progress i = some (f, d)) (hw : d + w ≤ f.length)
    (hcut : d + w < f.length → ∀ j, j ≠ i → m.progress j = none) :
    Sound { m with progress := Function.update m.progress i (left f (d + w)),
                   out := m.out ++ (f.drop d).take w } := by
  have hb := h.not_broken hi
  have hothers := h.others hi
  obtain ⟨fs, part, hout, hle, hpart, hnone⟩ := h.whole hb
  have hout' : m.out ++ (f.drop d).take w = fs.flatten ++ f.take (d + w) := by
    rw [hout, h.part_eq hpart hnone hi, append_assoc, take_add]
  rw [total_eq _ i, hi] at hle
  rcases hw.lt_or_eq with hlt | heq
  · -- the frame is cut: it is the only one under way
    rw [left, if_pos hlt]
    refine ⟨forall_lt_update h.lt ?_, fun j k hj hk => ?_, fun hb' => ?_,
      fun _ => ⟨fs, f.take (d + w), hout', ?_, fun j f' d' hj hd => ?_, fun hall => ?_⟩⟩
    · rintro _ _ ⟨⟩
      exact hlt
    · obtain rfl := (partly_update hothers hj).1
      exact (update_of_ne hk _ _).trans (hcut hlt k hk)
    · cases hb.symm.trans hb'
    · exact (congrArg _ (total_update _ _ _)).trans_le hle
    · cases eq_of_update hothers hj hd
      rfl
    · have hzero := hall i
      simp only [update_self, partly, bne_eq_false_iff_eq] at hzero
      rw [hzero, take_zero]
  · rw [left, if_neg heq.not_lt]
    refine ⟨forall_lt_update h.lt nofun, fun j _ hj => ?_, fun hb' => ?_,
      fun _ => ⟨fs ++ [f], [], ?_, ?_, fun j f' d' hj hd => ?_, fun _ => rfl⟩⟩
    · cases (partly_update hothers hj).2
    · cases hb.symm.trans hb'
    · rw [hout', heq, take_length, flatten_append, flatten_singleton, append_nil]
    · refine Eq.trans_le ?_ hle
      rw [total_update, ← Multiset.coe_add, add_assoc, frame, Option.elim_none, zero_add,
        Multiset.coe_singleton]
      rfl
    · cases eq_of_update hothers hj hd

/-- **A frame is given up**: nothing of it is out, or nothing goes out any more. -/
theorem Sound.failed (h : m.Sound) (hi : m.progress i = some (f, d)) :
    Sound { m with progress := Function.update m.progress i none,
                   broken := m.broken || d != 0 } := by
  have hb := h.not_broken hi
  have hothers := h.others hi
  refine ⟨forall_lt_update h.lt nofun, fun j _ hj => ?_, fun hb' => ⟨?_, h.atomic⟩, fun hb' => ?_⟩
  · cases (partly_update hothers hj).2
  · rw [hb, Bool.false_or] at hb'
    refine (forall_update_iff m.progress (fun _ p => p = none)).mpr ⟨rfl, fun j hj => ?_⟩
    exact h.alone i j (by rw [hi]; exact hb') hj
  · rw [hb, Bool.false_or, bne_eq_false_iff_eq] at hb'
    subst hb'
    obtain ⟨fs, part, hout, hle, hpart, hnone⟩ := h.whole hb
    refine ⟨fs, [], ?_, ?_, fun j f' d' hj hd => ?_, fun _ => rfl⟩
    · rw [hout, h.part_eq hpart hnone hi, take_zero]
    · rw [total_eq _ i] at hle
      refine le_trans (add_le_add_right ?_ _) hle
      rw [total_update, frame, Option.elim_none, zero_add]
      exact Multiset.le_add_left _ _
    · cases eq_of_update hothers hj hd

/-- **Every move that keeps frames apart keeps them whole.** -/
theorem Sound.step {a : Move ι β} (h : m.Sound) (hex : m.Exclusive a) (hstep : m.Step a n) :
    n.Sound := by
  cases hstep with
  | start hi hf => exact h.start hi hf hex.1 hex.2
  | wrote hi hw => exact h.wrote hi hw (hex _ _ hi)
  | failed hi => exact h.failed hi

omit [DecidableEq ι] in
theorem sound_init : Sound
    ({ progress := fun _ => none, out := [], started := [], broken := false } :
    Writers ι β) := by
  refine ⟨nofun, nofun, nofun, fun _ => ⟨[], [], rfl, ?_, nofun, fun _ => rfl⟩⟩
  simp [total, frame]

end Writers

end Cornet
