import Cornet.Concurrency.Semaphore

/-!
# Concurrency/SemaphoreQueue — the pointers are a queue, and every operation keeps it one

    Ok s l :   head, tail and the links spell `l`,  `l` = the awaiters that are queued,  in the order they came

`unlink` erases a waiter from `l`, `suspend` puts one behind it, and nothing else touches it.  The
loop of `wake_ready` is a run of `grant`s, each of the head: `wakeReady_induction` is the rule for
what they keep.
-/

namespace Cornet.Semaphore

open List

variable {ν γ : Type*} [DecidableEq ν] {s t : Sem ν γ} {l : List ν} {w u : ν} {p x : Option ν}

/-! ## The queue, by the log -/

/-- What an event does to the queue. -/
def stand (l : List ν) : Event ν → List ν
  | .queue w => l ++ [w]
  | .grant w | .leave w => l.erase w

/-- Who waits, first come first. -/
def line (log : List (Event ν)) : List ν := log.foldl stand []

theorem line_snoc (log : List (Event ν)) (e : Event ν) : line (log ++ [e]) = stand
    (line log) e := by
  rw [line, foldl_append]
  rfl

/-! ## Links -/

/-- The pointers spell a list, and it has the awaiters that are queued. -/
structure Lined (s : Sem ν γ) (l : List ν) : Prop where
  dlq : Dlq (fun w => (s.waiters w).next) (fun w => (s.waiters w).prev) s.head s.tail l
  mem_iff : ∀ w, w ∈ l ↔ (s.waiters w).queued = true

theorem put_apply (f : Waiter ν → Waiter ν) (u : ν) :
    (s.put w f).waiters u = if u = w then f (s.waiters w) else s.waiters u :=
  s.waiters.set_apply w _ u

theorem setNext_apply (s : Sem ν γ) (p x : Option ν) (u : ν) : (s.setNext p x).waiters u =
    { s.waiters u with next := if p = some u then x else (s.waiters u).next } := by
  cases p with
  | none => rfl
  | some p =>
    rw [Sem.setNext, put_apply]
    by_cases hu : u = p
    · simp [hu]
    · simp [hu, Ne.symm hu]

theorem setPrev_apply (s : Sem ν γ) (x p : Option ν) (u : ν) : (s.setPrev x p).waiters u =
    { s.waiters u with prev := if x = some u then p else (s.waiters u).prev } := by
  cases x with
  | none => rfl
  | some x =>
    rw [Sem.setPrev, put_apply]
    by_cases hu : u = x
    · simp [hu]
    · simp [hu, Ne.symm hu]

/-- What `unlink` writes. -/
theorem unlink_apply (s : Sem ν γ) (w u : ν) :
    (s.unlink w).waiters u =
      if u = w then { s.waiters w with next := none, prev := none, queued := false }
      else
        { s.waiters u with
          next := if (s.waiters w).prev = some u then (s.waiters w).next else (s.waiters u).next
          prev := if (s.waiters w).next = some u then (s.waiters w).prev
            else (s.waiters u).prev } := by
  rw [Sem.unlink, put_apply, setPrev_apply, setNext_apply, setPrev_apply, setNext_apply]

theorem setNext_head (s : Sem ν γ) (p x : Option ν) : (s.setNext p x).head = if p = none then x
    else s.head := by
  cases p <;> rfl

theorem setNext_tail (s : Sem ν γ) (p x : Option ν) : (s.setNext p x).tail = s.tail :=
  by cases p <;> rfl

theorem setPrev_head (s : Sem ν γ) (x p : Option ν) : (s.setPrev x p).head = s.head :=
  by cases x <;> rfl

theorem setPrev_tail (s : Sem ν γ) (x p : Option ν) : (s.setPrev x p).tail = if x = none then p
    else s.tail := by
  cases x <;> rfl

theorem unlink_head (s : Sem ν γ) (w : ν) :
    (s.unlink w).head = if (s.waiters w).prev = none then (s.waiters w).next else s.head :=
  (setPrev_head _ _ _).trans (setNext_head _ _ _)

theorem unlink_tail (s : Sem ν γ) (w : ν) :
    (s.unlink w).tail = if (s.waiters w).next = none then (s.waiters w).prev else s.tail :=
  (setPrev_tail _ _ _).trans (by rw [setNext_tail])

/-- What is not about the queue. -/
def Sem.books (s : Sem ν γ) : Sem ν γ := { s with head := none, tail := none, waiters := default }

theorem books_setNext (s : Sem ν γ) (p x : Option ν) : (s.setNext p x).books = s.books :=
  by cases p <;> rfl

theorem books_setPrev (s : Sem ν γ) (x p : Option ν) : (s.setPrev x p).books = s.books :=
  by cases x <;> rfl

theorem books_unlink (s : Sem ν γ) (w : ν) : (s.unlink w).books = s.books :=
  (books_setPrev _ _ _).trans (books_setNext _ _ _)

@[simp] theorem unlink_ready (s : Sem ν γ) (w : ν) : (s.unlink w).ready = s.ready :=
  (congrArg Sem.ready (books_unlink s w) :)

@[simp] theorem unlink_log (s : Sem ν γ) (w : ν) : (s.unlink w).log = s.log :=
  (congrArg Sem.log (books_unlink s w) :)

@[simp] theorem unlink_count (s : Sem ν γ) (w : ν) : (s.unlink w).count = s.count :=
  (congrArg Sem.count (books_unlink s w) :)

@[simp] theorem unlink_aborted (s : Sem ν γ) (w : ν) : (s.unlink w).aborted = s.aborted :=
  (congrArg Sem.aborted (books_unlink s w) :)

omit [DecidableEq ν] in
/-- The list is known by the links of its own waiters. -/
theorem Lined.congr (h : Lined s l) (hhead : t.head = s.head) (htail : t.tail = s.tail)
    (hlinks : ∀ w ∈ l, (t.waiters w).next = (s.waiters w).next ∧
      (t.waiters w).prev = (s.waiters w).prev)
    (hqueued : ∀ w, (t.waiters w).queued = (s.waiters w).queued) : Lined t l where
  dlq := by
    rw [hhead, htail]
    exact ⟨h.dlq.toDll.congr (fun w hw => (hlinks w hw).1) fun w hw => (hlinks w hw).2,
      h.dlq.tail_eq⟩
  mem_iff w := by rw [hqueued, h.mem_iff]

/-- A waiter leaves the queue. -/
theorem Lined.unlink (h : Lined s l) (hw : w ∈ l) : Lined (s.unlink w) (l.erase w) := by
  refine ⟨h.dlq.remove hw (fun m hm => ?_) (fun m hm => ?_) (unlink_head s w) (unlink_tail s w),
    fun m => ?_⟩
  · rw [unlink_apply, if_neg hm]
  · rw [unlink_apply, if_neg hm]
  · rw [unlink_apply, h.dlq.nodup.mem_erase_iff]
    by_cases hm : m = w
    · simp [hm]
    · simp only [ne_eq, hm, not_false_eq_true, true_and, if_false]
      exact h.mem_iff m

theorem suspend_apply (hw : s.tail ≠ some w) (n : ℕ) (u : ν) : (s.suspend w n).waiters u =
    if u = w then { need := n, queued := true, prev := s.tail, stage := .suspended }
    else { s.waiters u with next := if s.tail = some u then some w else (s.waiters u).next } := by
  change ((s.put w _).setNext s.tail (some w)).waiters u = _
  rw [setNext_apply, put_apply]
  by_cases hu : u = w
  · simp [hu, hw]
  · simp [hu]

omit [DecidableEq ν] in
theorem Lined.tail_ne (h : Lined s l) (hw : (s.waiters w).queued = false) : s.tail ≠ some w :=
  fun hc => by
  have hmem := (h.mem_iff w).mp (mem_of_getLast? (h.dlq.tail_eq ▸ hc))
  rw [hw] at hmem
  cases hmem

theorem suspend_head (s : Sem ν γ) (w : ν) (n : ℕ) :
    (s.suspend w n).head = if s.tail = none then some w else s.head := setNext_head (s.put w _) _ _

/-- A new waiter joins it. -/
theorem Lined.suspend (h : Lined s l) (hw : (s.waiters w).queued = false) (n : ℕ) :
    Lined (s.suspend w n) (l ++ [w]) := by
  have hwl : w ∉ l := fun hmem => by
    rw [h.mem_iff, hw] at hmem
    cases hmem
  have hne : ∀ m ∈ l, m ≠ w := by
    rintro m hm rfl
    exact hwl hm
  have happly := suspend_apply (h.tail_ne hw) n
  constructor
  · refine h.dlq.snoc hwl ?_ ?_ (fun m hm => ?_) (fun m hm => ?_) (suspend_head s w n)
    · rw [happly, if_pos rfl]
    · rw [happly, if_pos rfl]
    · rw [happly, if_neg (hne m hm)]
    · rw [happly, if_neg (hne m hm)]
  · intro m
    rw [happly, mem_append, mem_singleton, h.mem_iff]
    by_cases hm : m = w
    · simp [hm]
    · simp [hm]

/-! ## The invariant -/

/-- **The queue and its waiters**: who is queued waits for permits, who was scheduled is not queued
any more, and the queue is the one the log speaks of. -/
structure Ok (s : Sem ν γ) (l : List ν) : Prop extends Lined s l where
  waits : ∀ w, (s.waiters w).queued = true → (s.waiters w).stage = .suspended ∧
    (s.waiters w).granted = false
  fresh : ∀ w, (s.waiters w).stage = .suspended → (s.waiters w).consumed = false
  unborn : ∀ w, (s.waiters w).stage = .unborn → w ∉ s.ready
  woken : ∀ w ∈ s.ready, (s.waiters w).queued = false
  nodup : s.ready.Nodup
  line_eq : line s.log = l

theorem ok_make (initial : ℕ) : Ok (make initial : Sem ν γ) [] where
  dlq := dlq_nil
  mem_iff w := by
    change w ∈ [] ↔ false = true
    simp
  waits w h := by cases h
  fresh w h := by cases h
  unborn w _ := not_mem_nil
  woken w h := absurd h not_mem_nil
  nodup := .nil
  line_eq := rfl

theorem Ok.queued_of_head (h : Ok s (w :: l)) : (s.waiters w).queued = true :=
  (h.mem_iff w).mp mem_cons_self

/-- Permits and guards are not part of it. -/
theorem Ok.congr (h : Ok s l) (hwaiters : t.waiters = s.waiters) (hhead : t.head = s.head)
    (htail : t.tail = s.tail)
    (hready : t.ready = s.ready) (hlog : line t.log = line s.log) : Ok t l where
  toLined := h.toLined.congr hhead htail (fun _ _ => by rw [hwaiters]; exact ⟨rfl, rfl⟩) fun _ =>
    by rw [hwaiters]
  waits := hwaiters ▸ h.waits
  fresh := hwaiters ▸ h.fresh
  unborn := hready ▸ hwaiters ▸ h.unborn
  woken := hready ▸ hwaiters ▸ h.woken
  nodup := hready ▸ h.nodup
  line_eq := hlog.trans h.line_eq

/-- A waiter leaves the queue, whatever is written to it then. -/
theorem Ok.quit {f : Waiter ν → Waiter ν} {e : Event ν} (h : Ok s l) (hw : w ∈ l)
    (hqueued : ∀ e, (f e).queued = e.queued) (hconsumed : ∀ e, (f e).consumed = e.consumed)
    (hstage : ∀ e : Waiter ν, e.stage = .suspended → (f e).stage ≠ .unborn)
    (hwaiters : t.waiters = ((s.unlink w).put w f).waiters) (hhead : t.head = (s.unlink w).head)
    (htail : t.tail = (s.unlink w).tail) (hlog : t.log = (s.unlink w).log ++ [e])
    (he : ∀ l : List ν, stand l e = l.erase w)
    (hready : t.ready = (s.unlink w).ready ∨ t.ready = (s.unlink w).ready ++ [w]) : Ok t
      (l.erase w) := by
  rw [unlink_ready] at hready
  have hq : (s.waiters w).queued = true := (h.mem_iff w).mp hw
  have hmem : w ∉ s.ready := fun hc => by
    rw [h.woken w hc] at hq
    cases hq
  have hself : t.waiters w = f ((s.unlink w).waiters w) := by rw [hwaiters, put_apply, if_pos rfl]
  have hoff {u : ν} (hu : u ≠ w) : t.waiters u = (s.unlink w).waiters u :=
    by rw [hwaiters, put_apply, if_neg hu]
  have hunlinked : ((s.unlink w).waiters w).queued = false := by rw [unlink_apply, if_pos rfl]
  have hfield {u : ν} (hu : u ≠ w) : (t.waiters u).stage = (s.waiters u).stage ∧
      (t.waiters u).queued = (s.waiters u).queued ∧ (t.waiters u).granted = (s.waiters u).granted ∧
      (t.waiters u).consumed = (s.waiters u).consumed := by
    rw [hoff hu, unlink_apply, if_neg hu]
    exact ⟨rfl, rfl, rfl, rfl⟩
  have hgone : (t.waiters w).queued = false := by rw [hself, hqueued, hunlinked]
  refine ⟨(h.toLined.unlink hw).congr hhead htail (fun u hu => ?_) fun u => ?_, fun u hu => ?_,
    fun u hu => ?_,
    fun u hu => ?_, fun u hu => ?_, ?_, by rw [hlog, line_snoc, unlink_log, h.line_eq, he]⟩
  · have hne : u ≠ w := by
      rintro rfl
      exact h.dlq.nodup.not_mem_erase hu
    rw [hoff hne]
    exact ⟨rfl, rfl⟩
  · by_cases hu : u = w
    · rw [hu, hgone, hunlinked]
    · rw [hoff hu]
  · have hne : u ≠ w := by
      rintro rfl
      rw [hgone] at hu
      cases hu
    obtain ⟨h₁, h₂, h₃, -⟩ := hfield hne
    rw [h₁, h₃]
    exact h.waits u (h₂ ▸ hu)
  · by_cases hne : u = w
    · rw [hne, hself, hconsumed, unlink_apply, if_pos rfl]
      exact h.fresh w (h.waits w hq).1
    · obtain ⟨h₁, -, -, h₄⟩ := hfield hne
      rw [h₄]
      exact h.fresh u (h₁ ▸ hu)
  · have hne : u ≠ w := by
      rintro rfl
      refine hstage _ ?_ (hself ▸ hu)
      rw [unlink_apply, if_pos rfl]
      exact (h.waits u hq).1
    have hold := h.unborn u ((hfield hne).1 ▸ hu)
    rcases hready with hr | hr
    · rwa [hr]
    · rw [hr, mem_append, mem_singleton, not_or]
      exact ⟨hold, hne⟩
  · by_cases hne : u = w
    · rw [hne, hgone]
    · rw [(hfield hne).2.1]
      refine h.woken u ?_
      rcases hready with hr | hr
      · exact hr ▸ hu
      · rw [hr, mem_append, mem_singleton] at hu
        exact hu.resolve_right hne
  · rcases hready with hr | hr
    · exact hr ▸ h.nodup
    · rw [hr]
      exact nodup_append.mpr ⟨h.nodup, nodup_singleton w, by
        rintro a ha _ hb rfl
        exact hmem (mem_singleton.mp hb ▸ ha)⟩

/-- A write to an awaiter that is not queued, before or after. -/
theorem Ok.touch {f : Waiter ν → Waiter ν} (h : Ok s l) (hw : (s.waiters w).queued = false)
    (hf : (f (s.waiters w)).queued = false) (hstage : (f (s.waiters w)).stage = .gone)
    (hwaiters : t.waiters = (s.put w f).waiters) (hhead : t.head = s.head) (htail : t.tail = s.tail)
    (hready : t.ready = s.ready) (hlog : line t.log = line s.log) : Ok t l := by
  have hself : t.waiters w = f (s.waiters w) := by rw [hwaiters, put_apply, if_pos rfl]
  have hoff {u : ν} (hu : u ≠ w) : t.waiters u = s.waiters u :=
    by rw [hwaiters, put_apply, if_neg hu]
  have hqueued (u : ν) : (t.waiters u).queued = (s.waiters u).queued := by
    by_cases hu : u = w
    · rw [hu, hself, hf, hw]
    · rw [hoff hu]
  have hne {u : ν} (hu : (s.waiters u).queued = true) : u ≠ w := by
    rintro rfl
    rw [hw] at hu
    cases hu
  have hstage' {u : ν} (hu : (t.waiters u).stage ≠ .gone) : u ≠ w := by
    rintro rfl
    exact hu (hself ▸ hstage)
  refine ⟨h.toLined.congr hhead htail (fun u hu => ?_) hqueued, fun u hu => ?_, fun u hu => ?_,
    fun u hu => ?_,
    fun u hu => ?_, hready ▸ h.nodup, hlog.trans h.line_eq⟩
  · rw [hoff (hne ((h.mem_iff u).mp hu))]
    exact ⟨rfl, rfl⟩
  · rw [hqueued] at hu
    rw [hoff (hne hu)]
    exact h.waits u hu
  · have hu' : u ≠ w := hstage' (by rw [hu]; nofun)
    rw [hoff hu'] at hu ⊢
    exact h.fresh u hu
  · have hu' : u ≠ w := hstage' (by rw [hu]; nofun)
    rw [hready]
    exact h.unborn u (hoff hu' ▸ hu)
  · rw [hqueued]
    exact h.woken u (hready ▸ hu)

/-- A waiter whose frame goes. -/
theorem Ok.gone (h : Ok s l) (hw : (s.waiters w).queued = false) : Ok
    (s.put w fun e => { e with stage := .gone }) l :=
  h.touch hw hw rfl rfl rfl rfl rfl rfl

theorem Ok.grant (h : Ok s (w :: l)) : Ok (s.grant w) l := by
  have hquit : Ok (s.grant w) ((w :: l).erase w) :=
    h.quit (f := fun e => { e with granted := true }) mem_cons_self (fun _ => rfl) (fun _ => rfl)
      (fun _ he => by simp [he]) rfl rfl rfl rfl (fun _ => rfl) (.inr rfl)
  rwa [erase_cons_head] at hquit

theorem Ok.refuse (h : Ok s (w :: l)) (err : Error) : Ok (s.refuse err w) l := by
  have hquit : Ok (s.refuse err w) ((w :: l).erase w) :=
    h.quit (f := fun e => { e with err := err }) mem_cons_self (fun _ => rfl) (fun _ => rfl)
      (fun _ he => by simp [he]) rfl rfl rfl rfl (fun _ => rfl) (.inr rfl)
  rwa [erase_cons_head] at hquit

theorem books_suspend (s : Sem ν γ) (w : ν)
    (n : ℕ) : (s.suspend w n).books = { s.books with log := s.log ++ [.queue w] } := by
  rw [Sem.suspend]
  cases s.tail <;> rfl

theorem suspend_log (s : Sem ν γ) (w : ν) (n : ℕ) : (s.suspend w n).log = s.log ++ [.queue w] :=
  (congrArg Sem.log (books_suspend s w n) :)

theorem Ok.suspend (h : Ok s l) (hw : (s.waiters w).stage = .unborn) (n : ℕ) : Ok (s.suspend w n)
    (l ++ [w]) := by
  have hq : (s.waiters w).queued = false := by
    by_contra hc
    have := (h.waits w (by simpa using hc)).1
    rw [hw] at this
    cases this
  have happly := suspend_apply (h.tail_ne hq) n
  have hready : (s.suspend w n).ready = s.ready := (congrArg Sem.ready (books_suspend s w n) :)
  refine ⟨h.toLined.suspend hq n, fun u hu => ?_, fun u hu => ?_, fun u hu => ?_, fun u hu => ?_,
    hready ▸ h.nodup, ?_⟩
  · rw [happly] at hu ⊢
    by_cases hne : u = w
    · rw [if_pos hne]
      exact ⟨rfl, rfl⟩
    · rw [if_neg hne] at hu ⊢
      exact h.waits u hu
  · rw [happly] at hu ⊢
    by_cases hne : u = w
    · rw [if_pos hne]
    · rw [if_neg hne] at hu ⊢
      exact h.fresh u hu
  · have hne : u ≠ w := by
      rintro rfl
      rw [happly, if_pos rfl] at hu
      cases hu
    rw [happly, if_neg hne] at hu
    rw [hready]
    exact h.unborn u hu
  · rw [hready] at hu
    have hne : u ≠ w := by
      rintro rfl
      exact h.unborn u hw hu
    rw [happly, if_neg hne]
    exact h.woken u hu
  · rw [suspend_log, line_snoc, h.line_eq]
    rfl

/-! ## The loops -/

/-- A queued awaiter is one of those there are. -/
theorem Ok.length_lt (h : Ok s l) : l.length < s.turns := by
  have hsub : l.toFinset ⊆ s.waiters.keys := by
    intro w hw
    by_contra hc
    have hq := (h.mem_iff w).mp (mem_toFinset.mp hw)
    rw [s.waiters.val_of_notMem w hc] at hq
    cases hq
  rw [← toFinset_card_of_nodup h.dlq.nodup]
  exact Nat.lt_succ_of_le (Finset.card_le_card hsub)

/-- The head waits for more than there is. -/
def Sem.Tight (s : Sem ν γ) : Prop := ∀ w, s.head = some w → s.count < (s.waiters w).need

/-- One turn of `wake_ready`, or its end. -/
theorem wakeReady_cases (h : Ok s l) (k : ℕ) :
    (∃ w l', l = w :: l' ∧ (s.waiters w).need ≤ s.count ∧
      Sem.wakeReady (k + 1) s = Sem.wakeReady k (s.grant w)) ∨
    s.Tight ∧ Sem.wakeReady (k + 1) s = s := by
  rw [Sem.wakeReady]
  cases hhead : s.head with
  | none => exact .inr ⟨fun w hw => absurd (hhead.symm.trans hw) nofun, rfl⟩
  | some w =>
    dsimp only
    by_cases hfit : (s.waiters w).need ≤ s.count
    · have hl : l.head? = some w := h.dlq.head_eq.symm.trans hhead
      obtain ⟨l', rfl⟩ := head?_eq_some_iff.mp hl
      exact .inl ⟨w, l', rfl, hfit, if_pos hfit⟩
    · refine .inr ⟨fun u hu => ?_, if_neg hfit⟩
      obtain rfl := Option.some.inj (hhead.symm.trans hu)
      exact not_le.mp hfit

/-- **The loop rule** for `wake_ready`: what every grant to the head keeps, it keeps. -/
theorem wakeReady_induction {P : Sem ν γ → Prop}
    (hgrant : ∀ {s w l}, Ok s (w :: l) → (s.waiters w).need ≤ s.count → P s → P (s.grant w)) :
    ∀ (k : ℕ) {s : Sem ν γ} {l : List ν}, Ok s l → P s →
      (∃ l', Ok (Sem.wakeReady k s) l') ∧ P (Sem.wakeReady k s)
  | 0, _, _, h, hP => ⟨⟨_, h⟩, hP⟩
  | k + 1, s, l, h, hP => by
      rcases wakeReady_cases h k with ⟨w, l', rfl, hfit, heq⟩ | ⟨-, heq⟩
      · rw [heq]
        exact wakeReady_induction hgrant k h.grant (hgrant h hfit hP)
      · rw [heq]
        exact ⟨⟨l, h⟩, hP⟩

/-- With more turns than waiters the loop comes to its end. -/
theorem tight_wakeReady : ∀ (k : ℕ) {s : Sem ν γ} {l : List ν}, Ok s l → l.length < k →
    (Sem.wakeReady k s).Tight
  | 0, _, _, _, hk => absurd hk (Nat.not_lt_zero _)
  | k + 1, s, l, h, hk => by
      rcases wakeReady_cases h k with ⟨w, l', rfl, -, heq⟩ | ⟨htight, heq⟩
      · rw [heq]
        exact tight_wakeReady k h.grant (Nat.lt_of_succ_lt_succ hk)
      · rwa [heq]

end Cornet.Semaphore
