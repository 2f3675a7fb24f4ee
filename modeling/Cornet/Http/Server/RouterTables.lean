import Mathlib.Data.List.TakeWhile
import Cornet.Http.Server.RouterWalk

/-!
# Http/Server/RouterTables — what the tables hold after some registrations

    exact :  (method, segments)  ↦  the last route registered for them
    trie  :  a branch exists iff it starts some dynamic pattern;  (branch, method)  ↦  the last route at it

A registered path is read as an `address`: the branch it makes in the trie, or the branch it would
make if the exact table did not take it.  Nothing behind a wildcard counts.
-/

namespace Cornet.Http.Server

open List

/-! ## Segments -/

theorem mem_splitFrom : ∀ (fuel : ℕ) (path : List Byte), ∀ s ∈ splitFrom fuel path, s.text ≠ [] ∧
    47 ∉ s.text
  | 0, _ => nofun
  | fuel + 1, path => by
      intro s hs
      rw [splitFrom] at hs
      split at hs
      · cases hs
      · rename_i hne
        rcases mem_cons.mp hs with rfl | hs
        · have hhead := head_dropWhile_not (fun b : Byte => decide (b = 47)) hne
          refine ⟨?_, fun hmem => by simpa using mem_takeWhile_imp hmem⟩
          generalize path.dropWhile (fun b => decide (b = 47)) = p at *
          obtain ⟨b, p, rfl⟩ := exists_cons_of_ne_nil hne
          rw [head_cons, decide_eq_false_iff_not] at hhead
          simp [hhead]
        · exact mem_splitFrom fuel _ s hs

/-- A segment is not empty and holds no slash. -/
theorem mem_segments {path s : List Byte} (h : s ∈ segments path) : s ≠ [] ∧ 47 ∉ s := by
  obtain ⟨seg, hseg, rfl⟩ := mem_map.mp h
  exact mem_splitFrom _ _ seg hseg

theorem filter_splitOn_dropWhile : ∀ path : List Byte,
    ((path.dropWhile (· = 47)).splitOn 47).filter (· ≠ []) = (path.splitOn 47).filter (· ≠ [])
  | [] => rfl
  | b :: path => by
      rw [dropWhile_cons]
      split
      · rename_i hb
        have hb' : b = 47 := by simpa using hb
        rw [filter_splitOn_dropWhile path, hb', ← nil_append (47 :: path), splitOn_append_cons_self]
        rfl
      · rfl

/-- **The segments of a path** are what stands between its slashes, the empty pieces left out. -/
theorem segments_eq_splitOn (path : List Byte) : segments path = (path.splitOn 47).filter
    (· ≠ []) := by
  have key : ∀ (fuel : ℕ) (p : List Byte), p.length ≤ fuel →
      (splitFrom fuel p).map Segment.text = (p.splitOn 47).filter (· ≠ []) := by
    intro fuel
    induction fuel with
    | zero =>
      intro p hp
      rw [length_eq_zero_iff.mp (Nat.le_zero.mp hp)]
      rfl
    | succ fuel ih =>
      intro p hp
      have hlen := (dropWhile_sublist (p := fun b : Byte => decide (b = 47)) (l := p)).length_le
      have hhead := head_dropWhile_not (fun b : Byte => decide (b = 47)) (l := p)
      rw [splitFrom, ← filter_splitOn_dropWhile p]
      generalize p.dropWhile (fun b => decide (b = 47)) = p' at *
      split
      · rename_i hnil
        rw [hnil]
        rfl
      · rename_i hne
        have hsplit := takeWhile_append_dropWhile (p := fun b : Byte => decide (b ≠ 47)) (l := p')
        have hno : 47 ∉ p'.takeWhile fun b => decide (b ≠ 47) := fun h => by
          simpa using mem_takeWhile_imp h
        have hpos : p'.takeWhile (fun b => decide (b ≠ 47)) ≠ [] := by
          have hb := hhead hne
          obtain ⟨b, l, rfl⟩ := exists_cons_of_ne_nil hne
          rw [head_cons, decide_eq_false_iff_not] at hb
          simp [hb]
        have hstop := head_dropWhile_not (fun b : Byte => decide (b ≠ 47)) (l := p')
        generalize p'.takeWhile (fun b => decide (b ≠ 47)) = s at *
        generalize p'.dropWhile (fun b => decide (b ≠ 47)) = rest at *
        have hspos := length_pos_iff.mpr hpos
        rw [← hsplit, length_append] at hlen
        rw [map_cons, ih rest (by omega), ← hsplit]
        cases rest with
        | nil =>
          rw [append_nil, splitOn_eq_singleton hno]
          simp [hpos]
        | cons b t =>
          have hb : b = 47 := not_not.mp (decide_eq_false_iff_not.mp (hstop nofun))
          rw [hb, splitOn_append_cons_self_of_not_mem hno, ← nil_append (47 :: t),
            splitOn_append_cons_self]
          simp [hpos]
  exact key _ path le_rfl

/-- Segments can be read back from the normalised path. -/
theorem splitOn_flatMap : ∀ {l : List (List Byte)} {t : List Byte}, (∀ s ∈ l, 47 ∉ s) → 47 ∉ t →
    (t ++ l.flatMap (47 :: ·)).splitOn 47 = t :: l
  | [], _, _, ht => by rw [flatMap_nil, append_nil, splitOn_eq_singleton ht]
  | s :: l, _, hl, ht => by
      rw [flatMap_cons, cons_append, splitOn_append_cons_self_of_not_mem ht,
        splitOn_flatMap (fun x hx => hl x (mem_cons_of_mem _ hx)) (hl s mem_cons_self)]

theorem normalise_inj {p p' : List Byte} : normalise p = normalise p' ↔
    segments p = segments p' := by
  refine ⟨fun h => ?_, fun h => by rw [normalise, normalise, h]⟩
  have hne (p : List Byte) : (segments p).flatMap (47 :: ·) ≠ [47] := by
    intro h
    cases hs : segments p with
    | nil => simp [hs] at h
    | cons s l =>
      have hmem : s ∈ segments p := by
        rw [hs]
        exact mem_cons_self
      rw [hs, flatMap_cons, cons_append, List.cons.injEq, append_eq_nil_iff] at h
      exact (mem_segments hmem).1 h.2.1
  have hinj (h : (segments p).flatMap (47 :: ·) = (segments p').flatMap (47 :: ·)) : segments
    p = segments p' := by
    have hsplit (p : List Byte) :=
      splitOn_flatMap (t := []) (fun s (hs : s ∈ segments p) => (mem_segments hs).2) nofun
    exact (List.cons.inj ((hsplit p).symm.trans (h ▸ hsplit p'))).2
  rw [normalise, normalise] at h
  split at h <;> split at h
  · rename_i h₁ h₂
    exact hinj (h₁.trans h₂.symm)
  · exact absurd h.symm (hne p')
  · exact absurd h (hne p)
  · exact hinj h

theorem slot_inj {m m' : Method} : digit m.slot = digit m'.slot ↔ m = m' := by
  refine ⟨fun h => ?_, fun h => by rw [h]⟩
  cases m <;> cases m' <;> first | rfl | (revert h; decide)

theorem exactKey_inj {m m' : Method} {p p' : List Byte} :
    exactKey m (normalise p) = exactKey m' (normalise p') ↔ m = m' ∧ segments p = segments p' := by
  rw [exactKey, exactKey, List.cons.injEq, slot_inj, normalise_inj]

/-- The segments a scan of `fuel` steps finds, each behind a slash. -/
def slashed (fuel : ℕ) (path : List Byte) : List Byte :=
  ((splitFrom fuel path).map Segment.text).flatMap (47 :: ·)

/-- **The two scanners agree**: the loop of `normalise_key_into` writes what `split_path` finds. -/
theorem keyFrom_eq (cap : ℕ) : ∀ (fuel : ℕ) (out path : List Byte), out.length ≤ cap →
    keyFrom cap fuel out path = if cap < (out ++ slashed fuel path).length then none
      else some (out ++ slashed fuel path)
  | 0, out, path, h => by
      rw [keyFrom, slashed, splitFrom, map_nil, flatMap_nil, append_nil, if_neg (not_lt.mpr h)]
  | fuel + 1, out, path, h => by
      rw [keyFrom, slashed, splitFrom]
      dsimp only
      generalize path.dropWhile (fun b => decide (b = 47)) = p
      split
      · rw [map_nil, flatMap_nil, append_nil, if_neg (not_lt.mpr h)]
      · rw [map_cons, flatMap_cons, ← slashed]
        split
        · rw [if_pos]
          simp only [length_append, length_cons]
          omega
        · rw [keyFrom_eq cap fuel _ _ (by simp only [length_append, length_cons]; omega),
            append_assoc]

/-- **The key on the stack** is the key of the table, if that fits. -/
theorem normaliseKeyInto_eq (m : Method) (path : List Byte) (cap : ℕ) :
    normaliseKeyInto m path cap = if cap < (exactKey m (normalise path)).length then none
      else some (exactKey m (normalise path)) := by
  rw [normaliseKeyInto, exactKey, normalise, segments, splitPath]
  by_cases hcap : cap < 2
  · rw [if_pos hcap, if_pos]
    split
    · exact hcap
    · rename_i hne
      have hpos := length_pos_iff.mpr hne
      rw [length_cons]
      omega
  · rw [if_neg hcap, keyFrom_eq cap _ _ _ (by rw [length_singleton]; omega), singleton_append]
    rw [← slashed]
    generalize slashed path.length path = text
    by_cases hnil : text = []
    · rw [hnil, if_neg (by rw [length_singleton]; omega), if_pos rfl]
      exact (if_neg hcap).symm
    · have hlen : (digit m.slot :: text).length ≠ 1 := by
        have hpos := length_pos_iff.mpr hnil
        rw [length_cons]
        omega
      rw [if_neg hnil]
      split
      · rfl
      · rw [Option.map_some, if_neg hlen]

theorem getD_normaliseKeyInto (m : Method) (path : List Byte) (cap : ℕ) :
    (normaliseKeyInto m path cap).getD (exactKey m (normalise path)) = exactKey m
      (normalise path) := by
  rw [normaliseKeyInto_eq]
  split_ifs <;> rfl

/-! ## The trie -/

/-- The step a segment of a pattern stands for. -/
def stepOf (seg : List Byte) : Step :=
  if seg.head? = some 58 then .param else if seg.head? = some 42 then .wild else .lit seg

/-- The branch of a pattern. -/
def address : List (List Byte) → List Step
  | [] => []
  | seg :: segs => stepOf seg :: if stepOf seg = .wild then [] else address segs

/-- The parameter names of a pattern. -/
def names : List (List Byte) → List (List Byte)
  | [] => []
  | seg :: segs =>
    (if isDynamic seg then [seg.tail] else []) ++ if stepOf seg = .wild then [] else names segs

section Trie

variable {α : Type} {n c : Node α} {r : Route α} {slot i : Fin 10} {q : List Step} {s t : Step}
  {segs : List (List Byte)}

def Node.setChild (n : Node α) (c : Node α) : Step → Node α
  | .lit s => { n with literal := Table.upsert s (fun _ => c) n.literal }
  | .param => { n with param := some c }
  | .wild => { n with wildcard := some c }

theorem child_setChild (n c : Node α) (s t : Step) :
    (n.setChild c s).child t = if t = s then some c else n.child t := by
  cases s with
  | lit a =>
    cases t with
    | lit b =>
      change Table.find b (Table.upsert a (fun _ => c) n.literal) = _
      by_cases h : b = a
      · rw [h, Table.find_upsert_self, if_pos rfl]
      · rw [Table.find_upsert_of_ne (Ne.symm h), if_neg (by simpa using h)]
        rfl
    | param => rfl
    | wild => rfl
  | param | wild => cases t <;> rfl
theorem routes_setChild (n c : Node α) (s : Step) : (n.setChild c s).routes = n.routes := by
  cases s <;> rfl

theorem upsert_const {κ ν : Type} [DecidableEq κ] (k : κ) (f : Option ν → ν) (t : Table κ ν) :
    Table.upsert k f t = Table.upsert k (fun _ => f (Table.find k t)) t := by
  induction t with
  | nil => rfl
  | cons e t ih =>
    rw [Table.upsert, Table.upsert, Table.find]
    split
    · rfl
    · rw [ih]

/-- The route with the name of a segment. -/
def Route.withName (r : Route α) (seg : List Byte) : Route α :=
  if isDynamic seg then Node.named r seg else r

/-- One segment of `insert`. -/
theorem insert_cons (slot : Fin 10) (r : Route α) (seg : List Byte) (segs : List (List Byte))
    (n : Node α) :
    Node.insert slot r (seg :: segs) n =
      n.setChild (Node.insert slot (r.withName seg) (if stepOf seg = .wild then [] else segs)
        ((n.child (stepOf seg)).getD {})) (stepOf seg) := by
  rw [Node.insert, stepOf, Route.withName, isDynamic]
  by_cases h₁ : seg.head? = some 58
  · simp only [h₁, if_true, decide_true, Bool.true_or, reduceCtorEq, if_false]
    rfl
  · by_cases h₂ : seg.head? = some 42
    · simp only [h₂, if_true, decide_true, Bool.or_true]
      rfl
    · simp only [h₁, h₂, if_false, decide_false, Bool.or_false, reduceCtorEq, Bool.false_eq_true]
      change { n with literal := _ } = { n with literal := _ }
      rw [upsert_const]
      rfl

/-- The route a branch ends in, for a method. -/
def Node.routeAt (n : Node α) (q : List Step) (i : Fin 10) : Option (Route α) :=
  (n.branch q).bind (·.routes i)

theorem branch_empty (q : List Step) : (({} : Node α).branch q).isSome ↔ q = [] := by
  cases q with
  | nil => exact iff_of_true rfl rfl
  | cons s q => cases s <;> exact iff_of_false Bool.false_ne_true nofun

theorem routeAt_empty (q : List Step) (i : Fin 10) : ({} : Node α).routeAt q i = none := by
  cases q with
  | nil => rfl
  | cons s q => cases s <;> rfl

theorem branch_getD (n : Node α) (s : Step) (q : List Step) :
    (((n.child s).getD {}).branch q).isSome ↔ q = [] ∨ (n.branch (s :: q)).isSome := by
  rw [branch_cons]
  cases n.child s with
  | none =>
    rw [Option.getD_none, branch_empty]
    simp
  | some c =>
    rw [Option.getD_some, Option.bind_some]
    refine ⟨.inr, ?_⟩
    rintro (rfl | h)
    · rfl
    · exact h

theorem routeAt_getD (n : Node α) (s : Step) (q : List Step) (i : Fin 10) :
    ((n.child s).getD {}).routeAt q i = n.routeAt (s :: q) i := by
  rw [Node.routeAt, Node.routeAt, branch_cons]
  cases n.child s with
  | none => exact routeAt_empty q i
  | some c => rfl

/-- **The branches after an insertion**: the pattern's and all it starts with are added. -/
theorem branch_insert : ∀ (segs : List (List Byte)) (r : Route α) (n : Node α) (q : List Step),
    ((Node.insert slot r segs n).branch q).isSome ↔ (n.branch q).isSome ∨ q <+: address segs
  | [], r, n, q => by
      cases q with
      | nil => exact iff_of_true rfl (.inl rfl)
      | cons s q =>
        change ((n.setRoute slot r).branch (s :: q)).isSome ↔ _
        simp only [address, prefix_nil, reduceCtorEq, or_false]
        cases s <;> rfl
  | seg :: segs, r, n, q => by
      rw [insert_cons]
      cases q with
      | nil => exact iff_of_true rfl (.inl rfl)
      | cons s q =>
        rw [branch_cons, child_setChild, address, cons_prefix_cons]
        by_cases hs : s = stepOf seg
        · rw [if_pos hs, Option.bind_some, hs]
          have ih : ((Node.insert slot (r.withName seg) (if stepOf seg = .wild then [] else segs)
              ((n.child (stepOf seg)).getD {})).branch q).isSome ↔
              (((n.child (stepOf seg)).getD {}).branch q).isSome ∨
                q <+: if stepOf seg = .wild then [] else address segs := by
            split
            · exact branch_insert [] _ _ q
            · exact branch_insert segs _ _ q
          rw [ih, branch_getD]
          constructor
          · rintro ((rfl | h) | h)
            · exact .inr ⟨rfl, nil_prefix⟩
            · exact .inl h
            · exact .inr ⟨rfl, h⟩
          · rintro (h | ⟨-, h⟩)
            · exact .inl (.inr h)
            · exact .inr h
        · rw [if_neg hs, branch_cons]
          simp [hs]

/-- **The routes after an insertion**: the one at the end of the pattern is new. -/
theorem routeAt_insert : ∀ (segs : List (List Byte)) (r : Route α) (n : Node α) (q : List Step),
    (Node.insert slot r segs n).routeAt q i = if q = address segs ∧ i = slot then
      some { r with paramNames := r.paramNames ++ names segs } else n.routeAt q i
  | [], r, n, q => by
      cases q with
      | nil =>
        change (if i = slot then some r else n.routes i) = _
        simp only [address, true_and, names, append_nil]
        rfl
      | cons s q =>
        rw [if_neg (by simp [address])]
        cases s <;> rfl
  | seg :: segs, r, n, q => by
      rw [insert_cons]
      cases q with
      | nil =>
        have hne : ¬([] = address (seg :: segs) ∧ i = slot) := by
          rw [address]
          exact fun h => nomatch h.1
        rw [if_neg hne]
        change Node.routes (n.setChild _ _) i = _
        rw [routes_setChild]
        rfl
      | cons s q =>
        rw [Node.routeAt, branch_cons, child_setChild]
        by_cases hs : s = stepOf seg
        · rw [if_pos hs, Option.bind_some, hs]
          have ih : (Node.insert slot (r.withName seg) (if stepOf seg = .wild then [] else segs)
              ((n.child (stepOf seg)).getD {})).routeAt q i =
              if q = (if stepOf seg = .wild then [] else address segs) ∧ i = slot then
                some { r with paramNames := r.paramNames ++ names (seg :: segs) }
              else ((n.child (stepOf seg)).getD {}).routeAt q i := by
            have hname : (r.withName seg).paramNames ++
              (if stepOf seg = .wild then [] else names segs) =
                r.paramNames ++ names (seg :: segs) := by
              rw [names, Route.withName, ← append_assoc]
              split <;> simp [Node.named]
            have htarget : (r.withName seg).target = r.target := by
              rw [Route.withName]
              split <;> rfl
            rw [← hname]
            split
            · rw [routeAt_insert [] _ _ q, names, htarget]
              rfl
            · rw [routeAt_insert segs _ _ q, htarget]
          rw [routeAt_getD] at ih
          simp only [address, List.cons.injEq, true_and]
          exact ih
        · rw [if_neg hs, if_neg (by simp [address, hs])]
          rfl

end Trie

/-! ## Registrations -/

/-- A registration, and what the pointer of `add` reads if the route behind it is gone. -/
structure Reg (α : Type) where
  method : Method
  path : List Byte
  target : α
  junk : Route α := { target := target }
  deriving DecidableEq, Repr

namespace Reg

variable {α : Type} (g : Reg α)

/-- The path has a `:` or `*` segment. -/
def dynamic : Bool := (segments g.path).any isDynamic

def address : List Step := Server.address (segments g.path)

/-- The route as it is stored. -/
def route : Route α := { target := g.target, paramNames := names (segments g.path) }

end Reg

variable {α : Type} {rs : List (Reg α)} {g : Reg α} {m : Method} {path : List Byte}

/-- The router after some registrations. -/
def register (rs : List (Reg α)) : Router α :=
  rs.foldl (fun r g => r.add g.method g.path { target := g.target } g.junk) {}

theorem register_concat (rs : List (Reg α)) (g : Reg α) :
    register (rs ++ [g]) = (register rs).add g.method g.path { target := g.target } g.junk :=
  foldl_concat ..

theorem find_reverse_concat (p : Reg α → Bool) (rs : List (Reg α)) (g : Reg α) :
    (rs ++ [g]).reverse.find? p = if p g then some g else rs.reverse.find? p := by
  rw [reverse_append, reverse_singleton, singleton_append, find?_cons]
  cases p g <;> rfl

theorem slot_eq_iff {m m' : Method} : m.slot = m'.slot ↔ m = m' := by
  refine ⟨fun h => slot_inj.mp (by rw [h]), fun h => by rw [h]⟩

theorem names_of_static : ∀ {segs : List (List Byte)}, segs.any isDynamic = false → names segs = []
  | [], _ => rfl
  | seg :: segs, h => by
      rw [any_cons, Bool.or_eq_false_iff] at h
      rw [names, h.1, names_of_static h.2]
      simp

/-- **The branches of the trie** start dynamic patterns. -/
theorem branch_register (rs : List (Reg α)) (q : List Step) : ((register rs).root.branch q).isSome ↔
    q = [] ∨ ∃ g ∈ rs, g.dynamic = true ∧ q <+: g.address := by
  induction rs using List.reverseRecOn with
  | nil => rw [register, foldl_nil, branch_empty]; simp
  | append_singleton rs g ih =>
    rw [register_concat, Router.add]
    simp only [mem_append, mem_singleton, or_and_right, exists_or, exists_eq_left]
    split
    · rename_i hdyn
      have hdyn' : g.dynamic = true := hdyn
      rw [branch_insert, ih, hdyn', ← or_assoc]
      simp only [true_and]
      rfl
    · rename_i hdyn
      have hdyn' : g.dynamic = false := Bool.eq_false_iff.mpr hdyn
      rw [ih, hdyn']
      simp

/-- **The routes of the trie**: the last registered at a branch. -/
theorem routeAt_register (rs : List (Reg α)) (q : List Step) (m : Method) :
    (register rs).root.routeAt q m.slot =
      (rs.reverse.find? fun g => g.dynamic && decide (g.address = q) && decide (g.method = m)).map
        Reg.route := by
  induction rs using List.reverseRecOn with
  | nil => exact routeAt_empty q m.slot
  | append_singleton rs g ih =>
    rw [register_concat, Router.add, find_reverse_concat]
    split
    · rename_i hdyn
      have hdyn' : g.dynamic = true := hdyn
      rw [routeAt_insert, ih, hdyn', Bool.true_and]
      by_cases h : g.address = q ∧ g.method = m
      · rw [if_pos ⟨h.1.symm, slot_eq_iff.mpr h.2.symm⟩, if_pos (by simp [h.1, h.2])]
        rfl
      · rw [if_neg (fun h' => h ⟨h'.1.symm, (slot_eq_iff.mp h'.2).symm⟩),
          if_neg (by simpa [Bool.and_eq_true] using h)]
    · rename_i hdyn
      have hdyn' : g.dynamic = false := Bool.eq_false_iff.mpr hdyn
      rw [if_neg (by simp [hdyn'])]
      exact ih

/-- The exact table takes the registration, under this key. -/
def Reg.keyed (g : Reg α) (m : Method) (path : List Byte) : Bool :=
  !g.dynamic && decide (segments g.path = segments path) && decide (g.method = m)

/-- What the table has for a key, by its registrations from the last to the first. -/
def kept : List (Reg α) → Option (Route α)
  | [] => none
  | [g] => some g.route
  | g :: _ => some g.junk

theorem kept_cons (g : Reg α) (l : List (Reg α)) :
    kept (g :: l) = some (if (kept l).isSome then g.junk else g.route) := by
  match l with
  | [] | [_] | _ :: _ :: _ => rfl

/-- **The exact table**: the one route registered for a method and a list of segments. -/
theorem findExact_register (rs : List (Reg α)) (m : Method) (path : List Byte) :
    (register rs).findExact m path = kept (rs.filter (·.keyed m path)).reverse := by
  rw [Router.findExact, getD_normaliseKeyInto]
  induction rs using List.reverseRecOn with
  | nil => rfl
  | append_singleton rs g ih =>
    rw [register_concat, Router.add, filter_append, filter_singleton, reverse_append]
    split
    · rename_i hdyn
      have hdyn' : g.dynamic = true := hdyn
      rw [Reg.keyed, hdyn']
      exact ih
    · rename_i hdyn
      have hdyn' : g.dynamic = false := Bool.eq_false_iff.mpr hdyn
      by_cases h : segments g.path = segments path ∧ g.method = m
      · have hkey : exactKey g.method (normalise g.path) = exactKey m (normalise path) :=
          exactKey_inj.mpr ⟨h.2, h.1⟩
        have hkeyed : g.keyed m path = true := by simp [Reg.keyed, hdyn', h.1, h.2]
        have hroute : g.route = { target := g.target } := by rw [Reg.route, names_of_static hdyn']
        rw [hkey, Table.find_upsert_self, ih, hkeyed, ← hroute]
        exact (kept_cons g _).symm
      · have hkeyed : g.keyed m path = false := by
          simpa [Reg.keyed, hdyn', Bool.and_eq_true] using h
        rw [hkeyed, Table.find_upsert_of_ne fun hkey =>
          h ⟨(exactKey_inj.mp hkey).2, (exactKey_inj.mp hkey).1⟩]
        exact ih

end Cornet.Http.Server
