import Cornet.Http.Server.Router

/-!
# Http/Server/RouterWalk — the walk finds the first branch that takes the whole path

    descend ⋯ backtrack   =   search          (literal, then `:`, then `*`, at every node)

The stack of untried alternatives is a recursion in disguise: what the loop answers is what `search`
finds below the node, or else below the alternatives on the stack, from the top down.  A capture
recorded behind a frame never reaches below the count the frame restores.

In a trie a branch is named by its steps from the root.  `search` finds the least of the branches
that cover the path, literal before `:` before `*` at the first step where they part.
-/

namespace Cornet.Http.Server

open List

section Search

variable {α : Type} {node : Node α} {seg : Segment} {segs : List Segment}
  {captured : List (List Byte)}
  {stack : List (Frame α)}

/-- The walk as a recursion. -/
def search : List Segment → Node α → List (List Byte) → Option (Node α × List (List Byte))
  | [], node, captured => some (node, captured)
  | seg :: segs, node, captured =>
    ((Table.find seg.text node.literal).bind fun child => search segs child captured).or
      ((node.param.bind fun child => search segs child (capture captured seg.text)).or
        (node.wildcard.map fun child => (child, capture captured seg.rest)))

/-! ## Alternatives -/

/-- What a frame still has to offer. -/
def Frame.search (f : Frame α) (captured : List (List Byte)) : Option (Node α × List (List Byte)) :=
  let captured := captured.take f.params
  let wild := f.node.wildcard.map fun child => (child, capture captured f.seg.rest)
  match f.alt with
  | .param =>
    (f.node.param.bind fun child => Server.search f.segs child (capture captured f.seg.text)).or
      wild
  | .wildcard => wild

/-- What a stack has to offer, from the top. -/
def searchStack (captured : List (List Byte)) : List (Frame α) → Option (Node α × List (List Byte))
  | [] => none
  | f :: stack => (f.search captured).or (searchStack captured stack)

/-- The counts of a stack, from the top: none above `n`, and none above the one before. -/
def Sorted : ℕ → List (Frame α) → Prop
  | _, [] => True
  | n, f :: stack => f.params ≤ n ∧ Sorted f.params stack

theorem Sorted.mono : ∀ {stack : List (Frame α)} {n k : ℕ}, Sorted n stack → n ≤ k → Sorted k stack
  | [], _, _, _, _ => trivial
  | _ :: _, _, _, h, hk => ⟨h.1.trans hk, h.2⟩

/-- Two lists of captures that agree up to `n` are one to a stack that restores no more. -/
theorem searchStack_congr {captured' : List (List Byte)} : ∀ {stack : List (Frame α)} {n : ℕ},
    Sorted n stack →
    captured.take n = captured'.take n → searchStack captured stack = searchStack captured' stack
  | [], _, _, _ => rfl
  | f :: stack, n, hs, h => by
      have htake (k : ℕ) (hk : k ≤ n) : captured.take k = captured'.take k := by
        have := congrArg (List.take k) h
        rwa [take_take, take_take, min_eq_left hk] at this
      have hf : f.search captured = f.search captured' := by
        rw [Frame.search, Frame.search, htake _ hs.1]
      rw [searchStack, searchStack, hf, searchStack_congr hs.2 (htake _ hs.1)]

/-! ## How long the loop runs -/

/-- The rounds `search` over `n` segments can cost. -/
def cost : ℕ → ℕ
  | 0 => 0
  | n + 1 => 2 * cost n + 2

/-- The rounds a frame can cost. -/
def Frame.cost (f : Frame α) : ℕ :=
  match f.alt with
  | .param => Server.cost f.segs.length + 2
  | .wildcard => 1

theorem cost_lt (n : ℕ) : cost n + 2 = 2 ^ (n + 1) := by
  induction n with
  | zero => rfl
  | succ n ih =>
    rw [cost, Nat.pow_succ, ← ih]
    omega

theorem cost_passed (node : Node α) (seg : Segment) (segs : List Segment) (n : ℕ) :
    ((passed node seg segs n).map Frame.cost).sum ≤ cost segs.length + 2 := by
  rw [passed]
  split
  · simp [Frame.cost]
  · split
    · simp only [map_cons, Frame.cost, map_nil, sum_cons, sum_nil]
      omega
    · exact Nat.zero_le _

theorem cost_skipped (node : Node α) (seg : Segment) (segs : List Segment) (n : ℕ) :
    ((skipped node seg segs n).map Frame.cost).sum ≤ 1 := by
  rw [skipped]
  split
  · simp [Frame.cost]
  · exact Nat.zero_le _

theorem cost_descend : ∀ (segs : List Segment) (node : Node α) (captured : List (List Byte))
    (stack : List (Frame α)),
    ((descend segs node captured stack).stack.map Frame.cost).sum ≤
      cost segs.length + (stack.map Frame.cost).sum
  | [], _, _, _ => Nat.le_add_left _ _
  | seg :: segs, node, captured, stack => by
      rw [descend, length_cons, cost]
      split
      · rename_i child _
        refine (cost_descend segs child _ _).trans ?_
        have h := cost_passed node seg segs captured.length
        rw [map_append, sum_append]
        omega
      · split
        · rename_i child _
          refine (cost_descend segs child _ _).trans ?_
          have h := cost_skipped node seg segs captured.length
          rw [map_append, sum_append]
          omega
        · split <;> exact Nat.le_add_left _ _

theorem cost_resume (f : Frame α) (captured : List (List Byte)) (stack : List (Frame α)) :
    ((resume f captured stack).stack.map Frame.cost).sum < f.cost + (stack.map Frame.cost).sum := by
  have hpos : 0 < f.cost := by
    rw [Frame.cost]
    split <;> omega
  rw [resume]
  split
  · rename_i child halt _
    refine (cost_descend _ _ _ _).trans_lt ?_
    have h := cost_skipped f.node f.seg f.segs (captured.take f.params).length
    rw [map_append, sum_append, Frame.cost, halt]
    dsimp only
    omega
  · split <;> exact Nat.lt_add_of_pos_left hpos

/-! ## The loop is the recursion -/

theorem length_le_capture (captured : List (List Byte)) (v : List Byte) :
    captured.length ≤ (capture captured v).length := by
  rw [capture]
  split
  · simp
  · exact le_rfl

theorem take_capture (captured : List (List Byte)) (v : List Byte) :
    (capture captured v).take captured.length = captured.take captured.length := by
  rw [capture]
  split
  · simp
  · rfl

/-- What a walk comes to. -/
def Walk.answer (w : Walk α) : Option (Node α × List (List Byte)) :=
  if w.matched then some (w.node, w.captured) else searchStack w.captured w.stack

/-- No frame of the walk restores a count that is not reached. -/
def Walk.Tidy (w : Walk α) : Prop := Sorted w.captured.length w.stack

theorem searchStack_passed :
    searchStack captured (passed node seg segs captured.length ++ stack) =
      ((node.param.bind fun child => search segs child (capture captured seg.text)).or
        (node.wildcard.map fun child => (child, capture captured seg.rest))).or
          (searchStack captured stack) := by
  rw [passed]
  cases hp : node.param with
  | some child => simp [searchStack, Frame.search, hp]
  | none =>
    cases hw : node.wildcard with
    | some child => simp [searchStack, Frame.search, hw]
    | none => simp

theorem searchStack_skipped :
    searchStack captured (skipped node seg segs captured.length ++ stack) =
      (node.wildcard.map fun child => (child, capture captured seg.rest)).or
        (searchStack captured stack) := by
  rw [skipped]
  cases hw : node.wildcard with
  | some child => simp [searchStack, Frame.search, hw]
  | none => simp

theorem sorted_passed (h : Sorted captured.length stack) :
    Sorted captured.length (passed node seg segs captured.length ++ stack) := by
  rw [passed]
  split
  · exact ⟨le_rfl, h⟩
  · split
    · exact ⟨le_rfl, h⟩
    · exact h

theorem sorted_skipped (node : Node α) (seg : Segment) (segs : List Segment)
    (h : Sorted captured.length stack) :
    Sorted captured.length (skipped node seg segs captured.length ++ stack) := by
  rw [skipped]
  split
  · exact ⟨le_rfl, h⟩
  · exact h

/-- **One descent.** -/
theorem descend_spec : ∀ (segs : List Segment) (node : Node α) (captured : List (List Byte))
    (stack : List (Frame α)), Sorted captured.length stack →
    (descend segs node captured stack).Tidy ∧ (descend segs node captured stack).answer =
      (search segs node captured).or (searchStack captured stack)
  | [], _, _, _, h => ⟨h, rfl⟩
  | seg :: segs, node, captured, stack, h => by
      rw [descend, search]
      split
      · rename_i child hchild
        obtain ⟨htidy, hanswer⟩ := descend_spec segs child captured _ (sorted_passed h)
        refine ⟨htidy, hanswer.trans ?_⟩
        rw [searchStack_passed, hchild, Option.bind_some]
        simp only [Option.or_assoc]
      · rename_i hchild
        rw [hchild, Option.bind_none, Option.none_or]
        split
        · rename_i child hparam
          have hsorted := sorted_skipped node seg segs h
          obtain ⟨htidy, hanswer⟩ := descend_spec segs child (capture captured seg.text) _
            (hsorted.mono (length_le_capture captured seg.text))
          refine ⟨htidy, hanswer.trans ?_⟩
          rw [searchStack_congr hsorted (take_capture captured seg.text), searchStack_skipped,
            hparam,
            Option.bind_some, Option.or_assoc]
        · rename_i hparam
          rw [hparam, Option.bind_none, Option.none_or]
          split
          · rename_i child hwild
            rw [hwild]
            exact ⟨h.mono (length_le_capture captured seg.rest), rfl⟩
          · rename_i hwild
            rw [hwild]
            exact ⟨h, rfl⟩

/-- **One round of the loop.** -/
theorem resume_spec {f : Frame α} (h : Sorted captured.length (f :: stack)) :
    (resume f captured stack).Tidy ∧ (resume f captured stack).answer =
      (f.search captured).or (searchStack captured stack) := by
  have hlen : (captured.take f.params).length = f.params := by
    rw [length_take, min_eq_left h.1]
  have hsorted : Sorted (captured.take f.params).length stack := by
    rw [hlen]
    exact h.2
  have hcongr : searchStack (captured.take f.params) stack = searchStack captured stack :=
    searchStack_congr h.2 (by rw [take_take, min_self])
  rw [resume, Frame.search, ← hcongr]
  generalize captured.take f.params = captured at *
  split
  · rename_i child halt hparam
    have hsk := sorted_skipped f.node f.seg f.segs hsorted
    obtain ⟨htidy, hanswer⟩ := descend_spec f.segs child (capture captured f.seg.text) _
      (hsk.mono (length_le_capture captured f.seg.text))
    refine ⟨htidy, hanswer.trans ?_⟩
    rw [searchStack_congr hsk (take_capture captured f.seg.text), searchStack_skipped, halt, hparam]
    dsimp only
    rw [Option.bind_some, Option.or_assoc]
  · rename_i hnot
    have hoffer : (match f.alt with
        | .param => (f.node.param.bind fun child =>
            search f.segs child (capture captured f.seg.text)).or
              (f.node.wildcard.map fun child => (child, capture captured f.seg.rest))
        | .wildcard => f.node.wildcard.map fun child => (child, capture captured f.seg.rest)) =
        f.node.wildcard.map fun child => (child, capture captured f.seg.rest) := by
      cases halt : f.alt with
      | wildcard => rfl
      | param =>
        cases hparam : f.node.param with
        | none => rfl
        | some child => exact absurd hparam (hnot child halt)
    rw [hoffer]
    split
    · rename_i child hwild
      rw [hwild]
      exact ⟨hsorted.mono (length_le_capture captured f.seg.rest), rfl⟩
    · rename_i hwild
      rw [hwild]
      exact ⟨hsorted, rfl⟩

/-- **The loop** answers what the walk comes to, if it has the rounds its stack can cost. -/
theorem backtrack_eq : ∀ (fuel : ℕ) (w : Walk α), w.Tidy → (w.stack.map Frame.cost).sum < fuel →
    backtrack fuel w = some w.answer
  | 0, _, _, h => absurd h (Nat.not_lt_zero _)
  | fuel + 1, w, htidy, h => by
      rw [backtrack, Walk.answer]
      split
      · rfl
      · cases hstack : w.stack with
        | nil => rfl
        | cons f stack =>
          rw [Walk.Tidy, hstack] at htidy
          rw [hstack, map_cons, sum_cons] at h
          have hcost := cost_resume f w.captured stack
          obtain ⟨htidy', hanswer⟩ := resume_spec htidy
          exact (backtrack_eq fuel _ htidy' (by omega)).trans (congrArg some hanswer)

/-- **The walk is the search.** -/
theorem backtrack_descend (segs : List Segment) (root : Node α) :
    backtrack (rounds segs) (descend segs root [] []) = some (search segs root []) := by
  obtain ⟨htidy, hanswer⟩ := descend_spec segs root [] [] trivial
  have hcost := cost_descend segs root [] []
  have hpow := cost_lt segs.length
  rw [backtrack_eq _ _ htidy (by rw [rounds, ← hpow]; simp only [map_nil, sum_nil] at hcost; omega),
    hanswer]
  exact congrArg some Option.or_none

end Search

/-! ## Branches -/

/-- A step of a branch. -/
inductive Step
  | lit (s : List Byte)
  | param
  | wild
  deriving DecidableEq, Repr

/-- Literal before `:` before `*`. -/
def Step.rank : Step → ℕ
  | lit _ => 0
  | param => 1
  | wild => 2

/-- `p` is at least as specific as `q`: at the first step where the kinds differ, that of `p` comes
before. -/
def Precedes : List Step → List Step → Prop
  | [], _ => True
  | _ :: _, [] => False
  | s :: p, t :: q => s.rank < t.rank ∨ s.rank = t.rank ∧ Precedes p q

instance : ∀ p q, Decidable (Precedes p q)
  | [], _ => inferInstanceAs (Decidable True)
  | _ :: _, [] => inferInstanceAs (Decidable False)
  | _ :: p, _ :: q =>
    have := instDecidablePrecedes p q
    inferInstanceAs (Decidable (_ ∨ _ ∧ _))

/-- The branch takes the whole path. -/
def Covers : List Step → List Segment → Prop
  | .lit s :: q, seg :: segs => s = seg.text ∧ Covers q segs
  | .param :: q, _ :: segs => Covers q segs
  | [.wild], _ :: _ => True
  | [], [] => True
  | _, _ => False

/-- What a branch captures of a path. -/
def captures : List Step → List Segment → List (List Byte)
  | .lit _ :: q, _ :: segs => captures q segs
  | .param :: q, seg :: segs => seg.text :: captures q segs
  | .wild :: _, seg :: _ => [seg.rest]
  | _, _ => []

theorem covers_nil_iff {q : List Step} : Covers q [] ↔ q = [] := by
  cases q with
  | nil => exact iff_of_true trivial rfl
  | cons s q => cases s <;> exact iff_of_false (by simp [Covers]) nofun

theorem covers_cons_iff {q : List Step} {seg : Segment} {segs : List Segment} :
    Covers q (seg :: segs) ↔ (∃ q', q = .lit seg.text :: q' ∧ Covers q' segs) ∨
      (∃ q', q = .param :: q' ∧ Covers q' segs) ∨ q = [.wild] := by
  constructor
  · intro h
    match q, h with
    | .lit s :: q', h => exact .inl ⟨q', by rw [h.1], h.2⟩
    | .param :: q', h => exact .inr (.inl ⟨q', rfl, h⟩)
    | [.wild], _ => exact .inr (.inr rfl)
  · rintro (⟨q', rfl, h⟩ | ⟨q', rfl, h⟩ | rfl)
    · exact ⟨rfl, h⟩
    · exact h
    · trivial

theorem Precedes.refl : ∀ q : List Step, Precedes q q
  | [] => trivial
  | _ :: q => .inr ⟨rfl, refl q⟩

theorem Precedes.total : ∀ p q : List Step, Precedes p q ∨ Precedes q p
  | [], _ => .inl trivial
  | _ :: _, [] => .inr trivial
  | s :: p, t :: q => by
      rcases lt_trichotomy s.rank t.rank with h | h | h
      · exact .inl (.inl h)
      · exact (total p q).imp (fun hp => .inr ⟨h, hp⟩) fun hq => .inr ⟨h.symm, hq⟩
      · exact .inr (.inl h)

theorem Precedes.trans : ∀ {p q r : List Step}, Precedes p q → Precedes q r → Precedes p r
  | [], _, _, _, _ => trivial
  | _ :: _, _ :: _, _ :: _, .inl h, .inl h' => .inl (h.trans h')
  | _ :: _, _ :: _, _ :: _, .inl h, .inr h' => .inl (h.trans_eq h'.1)
  | _ :: _, _ :: _, _ :: _, .inr h, .inl h' => .inl (h.1.trans_lt h')
  | _ :: _, _ :: _, _ :: _, .inr h, .inr h' => .inr ⟨h.1.trans h'.1, h.2.trans h'.2⟩

/-- Two branches that cover one path and precede each other are one. -/
theorem Precedes.antisymm : ∀ {segs : List Segment} {p q : List Step}, Covers p segs →
    Covers q segs →
    Precedes p q → Precedes q p → p = q
  | [], p, q, hp, hq, _, _ => (covers_nil_iff.mp hp).trans (covers_nil_iff.mp hq).symm
  | seg :: segs, p, q, hp, hq, h, h' => by
      rcases covers_cons_iff.mp hp with ⟨p', rfl, hp'⟩ | ⟨p', rfl, hp'⟩ | rfl <;>
        rcases covers_cons_iff.mp hq with ⟨q', rfl, hq'⟩ | ⟨q', rfl, hq'⟩ | rfl <;>
          simp [Precedes, Step.rank] at h h'
      · rw [antisymm hp' hq' h h']
      · rw [antisymm hp' hq' h h']
      · rfl

section Branches

variable {α : Type} {n c : Node α} {segs : List Segment} {captured : List (List Byte)}
  {q : List Step}

def Node.child (n : Node α) : Step → Option (Node α)
  | .lit s => Table.find s n.literal
  | .param => n.param
  | .wild => n.wildcard

/-- The node a branch leads to. -/
def Node.branch : Node α → List Step → Option (Node α)
  | n, [] => some n
  | n, s :: q => (n.child s).bind (·.branch q)

/-- `q` is the first branch of `n` that covers the path. -/
structure First (n : Node α) (segs : List Segment) (q : List Step) : Prop where
  covers : Covers q segs
  exists_ : (n.branch q).isSome
  least : ∀ p, Covers p segs → (n.branch p).isSome → Precedes q p

theorem branch_cons (n : Node α) (s : Step) (q : List Step) :
    n.branch (s :: q) = (n.child s).bind (·.branch q) := rfl

/-- A first branch below a child is a first branch, if the steps before find nothing. -/
theorem First.cons {seg : Segment} {s : Step} (hchild : n.child s = some c) (h : First c segs q)
    (hs : Covers (s :: q) (seg :: segs))
    (hbefore : ∀ t p, t.rank < s.rank → Covers (t :: p) (seg :: segs) → n.branch (t :: p) = none)
    (hsame : ∀ t p, t.rank = s.rank → Covers (t :: p) (seg :: segs) → t = s ∧ Covers p segs) :
    First n (seg :: segs) (s :: q) := by
  refine ⟨hs, ?_, ?_⟩
  · rw [branch_cons, hchild]
    exact h.exists_
  · intro p hp hsome
    match p, hp with
    | t :: p, hp =>
      rcases lt_trichotomy t.rank s.rank with hlt | heq | hgt
      · rw [hbefore t p hlt hp] at hsome
        cases hsome
      · obtain ⟨rfl, hp'⟩ := hsame t p heq hp
        rw [branch_cons, hchild] at hsome
        exact .inr ⟨rfl, h.least p hp' hsome⟩
      · exact .inl hgt

/-- **The search** finds the first branch that covers the path, or there is none. -/
theorem search_spec : ∀ (segs : List Segment) (n : Node α) (captured : List (List Byte)),
    (search segs n captured = none ∧ ∀ q, Covers q segs → n.branch q = none) ∨
      ∃ q c, First n segs q ∧ n.branch q = some c ∧
        search segs n captured = some (c, (captures q segs).foldl capture captured)
  | [], n, captured => by
      refine .inr ⟨[], n, ⟨trivial, rfl, fun _ _ _ => trivial⟩, rfl, rfl⟩
  | seg :: segs, n, captured => by
      -- below one child, by induction
      have below (s : Step) (captured' : List (List Byte)) :
          ((n.child s).bind (fun c => search segs c captured') = none ∧
              ∀ q, Covers q segs → n.branch (s :: q) = none) ∨
            ∃ q d c, n.child s = some d ∧ First d segs q ∧ n.branch (s :: q) = some c ∧
              (n.child s).bind (fun c => search segs c captured') =
                some (c, (captures q segs).foldl capture captured') := by
        cases hd : n.child s with
        | none => exact .inl ⟨rfl, fun q _ => by rw [branch_cons, hd]; rfl⟩
        | some d =>
          rcases search_spec segs d captured' with ⟨hnone, hno⟩ | ⟨q, c, hfirst, hc, hsome⟩
          · exact .inl ⟨hnone, fun q hq => by rw [branch_cons, hd]; exact hno q hq⟩
          · exact .inr ⟨q, d, c, rfl, hfirst, by rw [branch_cons, hd]; exact hc, hsome⟩
      rw [search]
      rcases below (.lit seg.text) captured with ⟨hlit, hnolit⟩ | ⟨q, d, c, hd, hfirst, hc, hsome⟩
      · change (Table.find seg.text n.literal).bind _ = none at hlit
        rw [hlit, Option.none_or]
        rcases below .param (capture captured seg.text) with
          ⟨hparam, hnoparam⟩ | ⟨q, d, c, hd, hfirst, hc, hsome⟩
        · change n.param.bind _ = none at hparam
          rw [hparam, Option.none_or]
          cases hw : n.wildcard with
          | none =>
            refine .inl ⟨rfl, fun q hq => ?_⟩
            rcases covers_cons_iff.mp hq with ⟨q', rfl, hq'⟩ | ⟨q', rfl, hq'⟩ | rfl
            · exact hnolit q' hq'
            · exact hnoparam q' hq'
            · rw [branch_cons]
              exact congrArg (Option.bind · _) hw
          | some c =>
            have hbranch : n.branch [.wild] = some c := by
              rw [branch_cons]
              exact congrArg (Option.bind · _) hw
            refine .inr ⟨[.wild], c, ⟨trivial, by rw [hbranch]; rfl, fun p hp hsome => ?_⟩, hbranch,
              rfl⟩
            rcases covers_cons_iff.mp hp with ⟨q', rfl, hq'⟩ | ⟨q', rfl, hq'⟩ | rfl
            · rw [hnolit q' hq'] at hsome
              cases hsome
            · rw [hnoparam q' hq'] at hsome
              cases hsome
            · exact .refl _
        · change n.param.bind _ = _ at hsome
          rw [hsome, Option.some_or]
          refine .inr ⟨_, c, hfirst.cons hd hfirst.covers ?_ ?_, hc, rfl⟩
          · intro t p ht hp
            rcases covers_cons_iff.mp hp with ⟨q', heq, hq'⟩ | ⟨q', heq, hq'⟩ | heq
            · rw [heq]
              exact hnolit q' hq'
            · simp [List.cons.inj heq, Step.rank] at ht
            · simp [List.cons.inj heq, Step.rank] at ht
          · intro t p ht hp
            rcases covers_cons_iff.mp hp with ⟨q', heq, hq'⟩ | ⟨q', heq, hq'⟩ | heq
            · simp [List.cons.inj heq, Step.rank] at ht
            · exact ⟨(List.cons.inj heq).1, (List.cons.inj heq).2 ▸ hq'⟩
            · simp [List.cons.inj heq, Step.rank] at ht
      · change (Table.find seg.text n.literal).bind _ = _ at hsome
        rw [hsome, Option.some_or]
        refine .inr ⟨_, c, hfirst.cons hd ⟨rfl, hfirst.covers⟩
          (fun t p ht => absurd ht (Nat.not_lt_zero _)) ?_,
          hc, rfl⟩
        intro t p ht hp
        rcases covers_cons_iff.mp hp with ⟨q', heq, hq'⟩ | ⟨q', heq, hq'⟩ | heq
        · exact ⟨(List.cons.inj heq).1, (List.cons.inj heq).2 ▸ hq'⟩
        · simp [List.cons.inj heq, Step.rank] at ht
        · simp [List.cons.inj heq, Step.rank] at ht

/-- The trie of `/a/x` and `/*`. -/
def deadEnd : Node ℕ := { literal := [([97], { literal := [([120], {})] })], wildcard := some {} }

/-- The segments of `/a/1`. -/
def pastDeadEnd : List Segment := [⟨[97], [97, 47, 49]⟩, ⟨[49], [49]⟩]

end Branches

end Cornet.Http.Server
