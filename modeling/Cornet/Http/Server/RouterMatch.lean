import Cornet.Http.Server.RouterTables

/-!
# Http/Server/RouterMatch — which route a request gets

    routes of `m` that match ──most specific, latest──▸ the route due          patterns and all they start with
                                                        the walk's end ◂──first──   of every method

The route due is the best of its method.  The walk looks for the first branch that covers the path,
whatever routes it has, and stops there.  The two agree exactly when the first branch ends in a
route of the method; and a mismatch is told from a missing path only at that branch, never in the
exact table.
-/

namespace Cornet.Http.Server

instance : ∀ q segs, Decidable (Covers q segs)
  | .lit _ :: q, _ :: segs =>
    have := instDecidableCovers q segs
    inferInstanceAs (Decidable (_ ∧ _))
  | .param :: q, _ :: segs =>
    have := instDecidableCovers q segs
    inferInstanceAs (Decidable (Covers q segs))
  | [.wild], _ :: _ => inferInstanceAs (Decidable True)
  | [], [] => inferInstanceAs (Decidable True)
  | [], _ :: _ => inferInstanceAs (Decidable False)
  | .lit _ :: _, [] => inferInstanceAs (Decidable False)
  | .param :: _, [] => inferInstanceAs (Decidable False)
  | [.wild], [] => inferInstanceAs (Decidable False)
  | .wild :: _ :: _, _ => inferInstanceAs (Decidable False)

open List

section Spec

variable {α : Type} (rs : List (Reg α)) (m : Method) (path : List Byte) (g : Reg α)

/-- The pattern matches the path. -/
def Reg.Matches : Prop := Covers g.address (splitPath path)

instance : Decidable (g.Matches path) := inferInstanceAs (Decidable (Covers _ _))

/-- The parameters of a match: the first eight, with their names. -/
def Reg.bindings : List (List Byte × List Byte) :=
  (names (segments g.path)).zip ((captures g.address (splitPath path)).take kMax)

/-- `g` is the route due: the most specific of its method that matches, and the latest of those. -/
structure Best : Prop where
  method_eq : g.method = m
  matches_ : g.Matches path
  latest : ∃ pre post, rs = pre ++ g :: post ∧
    (∀ h ∈ pre, h.method = m → h.Matches path → Precedes g.address h.address) ∧
    ∀ h ∈ post, h.method = m → h.Matches path → ¬Precedes h.address g.address

/-- Some route of the method matches. -/
def Served : Prop := ∃ g ∈ rs, g.method = m ∧ g.Matches path

/-- Some exact route of the method matches. -/
def Exact : Prop := ∃ g ∈ rs, g.dynamic = false ∧ g.method = m ∧ g.Matches path

/-- The first branch that covers the path ends in a route of the method: some dynamic pattern of it
comes before every pattern of any method, and everything such a pattern starts with. -/
def Ends : Prop := ∃ g ∈ rs, g.dynamic = true ∧ g.method = m ∧ g.Matches path ∧
  ∀ h ∈ rs, h.dynamic = true → ∀ q, q <+: h.address → Covers q (splitPath path) →
    Precedes g.address q

/-- No exact route is registered twice. -/
def Distinct : Prop := rs.Pairwise fun g h =>
  g.dynamic = false → h.dynamic = false → g.method = h.method → segments g.path ≠ segments h.path

instance : Decidable (Distinct rs) := inferInstanceAs (Decidable (List.Pairwise _ _))

end Spec

variable {α : Type} {rs : List (Reg α)} {m : Method} {path : List Byte} {g h : Reg α}
  {segs : List Segment} {q : List Step}

/-! ## Exact and dynamic patterns -/

theorem rank_stepOf {seg : List Byte} : isDynamic seg = true ↔ (stepOf seg).rank ≠ 0 := by
  rw [isDynamic, stepOf]
  by_cases h₁ : seg.head? = some 58
  · simp [h₁, Step.rank]
  · by_cases h₂ : seg.head? = some 42 <;> simp [h₁, h₂, Step.rank]

/-- A pattern is dynamic if a step of its branch is. -/
theorem any_isDynamic : ∀ {segs : List (List Byte)},
    segs.any isDynamic = true ↔ ∃ s ∈ address segs, s.rank ≠ 0
  | [] => by simp [address]
  | seg :: segs => by
      rw [any_cons, Bool.or_eq_true, rank_stepOf, address]
      by_cases hw : stepOf seg = .wild
      · rw [if_pos hw]
        simp [hw, Step.rank]
      · rw [if_neg hw, any_isDynamic]
        simp

theorem address_of_static : ∀ {segs : List (List Byte)}, segs.any isDynamic = false →
    address segs = segs.map .lit
  | [], _ => rfl
  | seg :: segs, h => by
      rw [any_cons, Bool.or_eq_false_iff, isDynamic, Bool.or_eq_false_iff, decide_eq_false_iff_not,
        decide_eq_false_iff_not] at h
      have hstep : stepOf seg = .lit seg := by rw [stepOf, if_neg h.1.1, if_neg h.1.2]
      rw [address, hstep, if_neg (by rintro ⟨⟩), address_of_static h.2]
      rfl

theorem covers_map_lit : ∀ {l : List (List Byte)} {segs : List Segment},
    Covers (l.map .lit) segs ↔ l = segs.map Segment.text
  | [], [] => iff_of_true trivial rfl
  | [], _ :: _ => iff_of_false id nofun
  | _ :: _, [] => iff_of_false id nofun
  | s :: l, seg :: segs => by
      change s = seg.text ∧ Covers (l.map .lit) segs ↔ _
      rw [covers_map_lit, map_cons, List.cons.injEq]

theorem precedes_map_lit : ∀ {l : List (List Byte)} {segs : List Segment} {q : List Step},
    Covers (l.map .lit) segs → Covers q segs → Precedes (l.map .lit) q
  | [], _, _, _, _ => trivial
  | _ :: l, seg :: segs, q, hl, hq => by
      rcases covers_cons_iff.mp hq with ⟨q', rfl, hq'⟩ | ⟨q', rfl, hq'⟩ | rfl
      · exact .inr ⟨rfl, precedes_map_lit hl.2 hq'⟩
      · exact .inl Nat.one_pos
      · exact .inl Nat.two_pos

theorem address_eq_map_lit (hg : g.dynamic = false) : g.address = (segments g.path).map .lit :=
  address_of_static hg

/-- An exact pattern matches its own segments. -/
theorem matches_static (hg : g.dynamic = false) : g.Matches path ↔
    segments g.path = segments path := by
  rw [Reg.Matches, address_eq_map_lit hg, covers_map_lit]
  rfl

/-- An exact pattern comes first. -/
theorem precedes_static (hg : g.dynamic = false) (hm : g.Matches path) (hh : h.Matches path) :
    Precedes g.address h.address := by
  rw [Reg.Matches, address_eq_map_lit hg] at hm
  rw [address_eq_map_lit hg]
  exact precedes_map_lit hm hh

theorem dynamic_congr (h' : g.address = h.address) : g.dynamic = h.dynamic := by
  have hiff : g.dynamic = true ↔ h.dynamic = true := by
    rw [Reg.dynamic, Reg.dynamic, any_isDynamic, any_isDynamic]
    change (∃ s ∈ g.address, _) ↔ ∃ s ∈ h.address, _
    rw [h']
  exact Bool.eq_iff_iff.mpr hiff

/-! ## The route due -/

/-- **There is a route due** wherever one matches. -/
theorem exists_best (hs : Served rs m path) : ∃ g, Best rs m path g := by
  induction rs using List.reverseRecOn with
  | nil =>
    obtain ⟨g, hg, -⟩ := hs
    cases hg
  | append_singleton rs x ih =>
    by_cases hrs : Served rs m path
    · obtain ⟨g, hg⟩ := ih hrs
      obtain ⟨pre, post, heq, hpre, hpost⟩ := hg.latest
      by_cases hx : (x.method = m ∧ x.Matches path) ∧ Precedes x.address g.address
      · refine ⟨x, hx.1.1, hx.1.2, rs, [], rfl, fun y hy hym hyp => ?_, nofun⟩
        rw [heq] at hy
        rcases mem_append.mp hy with hy | hy
        · exact hx.2.trans (hpre y hy hym hyp)
        · rcases mem_cons.mp hy with rfl | hy
          · exact hx.2
          · exact hx.2.trans ((Precedes.total _ _).resolve_left (hpost y hy hym hyp))
      · refine ⟨g, hg.method_eq, hg.matches_, pre, post ++ [x],
          by simp [heq], hpre, fun y hy hym hyp => ?_⟩
        rcases mem_append.mp hy with hy | hy
        · exact hpost y hy hym hyp
        · rw [mem_singleton.mp hy] at hym hyp ⊢
          exact fun h => hx ⟨⟨hym, hyp⟩, h⟩
    · obtain ⟨y, hy, hym, hyp⟩ := hs
      rcases mem_append.mp hy with hy | hy
      · exact absurd ⟨y, hy, hym, hyp⟩ hrs
      · obtain rfl := mem_singleton.mp hy
        exact ⟨y, hym, hyp, rs, [], rfl, fun z hz hzm hzp => absurd ⟨z, hz, hzm, hzp⟩ hrs, nofun⟩

theorem Best.mem (hb : Best rs m path g) : g ∈ rs := by
  obtain ⟨pre, post, rfl, -⟩ := hb.latest
  simp

/-- It precedes every other of its method. -/
theorem Best.precedes (hb : Best rs m path g) (hh : h ∈ rs) (hm : h.method = m)
    (hp : h.Matches path) :
    Precedes g.address h.address := by
  obtain ⟨pre, post, rfl, hpre, hpost⟩ := hb.latest
  rcases mem_append.mp hh with hh | hh
  · exact hpre h hh hm hp
  · rcases mem_cons.mp hh with rfl | hh
    · exact .refl _
    · exact (Precedes.total _ _).resolve_right (hpost h hh hm hp)

/-- It is the last of those that match with its address. -/
theorem Best.find (hb : Best rs m path g) {p : Reg α → Bool} (hp : p g = true)
    (himp : ∀ h, p h = true → h.method = m ∧ h.Matches path ∧ h.address = g.address) :
    rs.reverse.find? p = some g := by
  obtain ⟨pre, post, rfl, -, hpost⟩ := hb.latest
  rw [find?_eq_some_iff_append]
  refine ⟨hp, post.reverse, pre.reverse, by simp, fun h hh => ?_⟩
  rw [Bool.not_eq_true']
  by_contra hph
  obtain ⟨hm, hmat, haddr⟩ := himp h (Bool.not_eq_false _ ▸ hph)
  exact hpost h (mem_reverse.mp hh) hm hmat (haddr ▸ .refl _)

/-! ## The answer -/

/-- The slots keep the first eight. -/
theorem foldl_capture : ∀ {l captured : List (List Byte)}, captured.length ≤ kMax →
    l.foldl capture captured = (captured ++ l).take kMax
  | [], captured, h => by rw [append_nil, take_of_length_le h]; rfl
  | v :: l, captured, h => by
      rw [foldl_cons, capture]
      split
      · rename_i hlt
        rw [foldl_capture (by rw [length_append, length_singleton]; omega), append_assoc]
        rfl
      · rename_i hfull
        have hlen : captured.length = kMax := by omega
        rw [foldl_capture h, ← hlen, take_left, take_left]

theorem hasAnyRoute_iff {n : Node α} : n.hasAnyRoute = true ↔ ∃ m : Method,
    (n.routes m.slot).isSome := by
  rw [Node.hasAnyRoute, any_eq_true]
  constructor
  · rintro ⟨i, -, hi⟩
    have hslot : ∃ m : Method, m.slot = i := by
      fin_cases i
      · exact ⟨.get, rfl⟩
      · exact ⟨.head, rfl⟩
      · exact ⟨.post, rfl⟩
      · exact ⟨.put, rfl⟩
      · exact ⟨.delete, rfl⟩
      · exact ⟨.patch, rfl⟩
      · exact ⟨.options, rfl⟩
      · exact ⟨.connect, rfl⟩
      · exact ⟨.trace, rfl⟩
      · exact ⟨.unknown, rfl⟩
    obtain ⟨m, rfl⟩ := hslot
    exact ⟨m, hi⟩
  · rintro ⟨m, hm⟩
    exact ⟨m.slot, mem_finRange _, hm⟩

/-- The exact table takes the exact patterns that match. -/
theorem keyed_iff : g.keyed m path = true ↔ g.dynamic = false ∧ g.method = m ∧ g.Matches path := by
  rw [Reg.keyed, Bool.and_eq_true, Bool.and_eq_true, Bool.not_eq_true', decide_eq_true_iff,
    decide_eq_true_iff]
  constructor
  · rintro ⟨⟨hdyn, hsegs⟩, hm⟩
    exact ⟨hdyn, hm, (matches_static hdyn).mpr hsegs⟩
  · rintro ⟨hdyn, hm, hmat⟩
    exact ⟨⟨hdyn, (matches_static hdyn).mp hmat⟩, hm⟩

/-- Of distinct exact routes at most one is taken under a key. -/
theorem Distinct.filter_keyed (hrs : Distinct rs) (hg : g ∈ rs) (hkeyed : g.keyed m path = true) :
    rs.filter (·.keyed m path) = [g] := by
  have hapart : (rs.filter (·.keyed m path)).Pairwise fun _ _ => False := by
    refine (hrs.filter _).imp_of_mem fun {a b} ha hb hne => ?_
    obtain ⟨hda, hma, hpa⟩ := keyed_iff.mp (mem_filter.mp ha).2
    obtain ⟨hdb, hmb, hpb⟩ := keyed_iff.mp (mem_filter.mp hb).2
    exact hne hda hdb (hma.trans hmb.symm)
      (((matches_static hda).mp hpa).trans ((matches_static hdb).mp hpb).symm)
  have hmem : g ∈ rs.filter (·.keyed m path) := mem_filter.mpr ⟨hg, hkeyed⟩
  generalize rs.filter (·.keyed m path) = l at *
  match l, hapart, hmem with
  | [x], _, hmem => rw [mem_singleton.mp hmem]
  | x :: y :: l, hapart, _ => exact ((pairwise_cons.mp hapart).1 y mem_cons_self).elim

/-- An exact route of the method is found by its segments. -/
theorem findExact_eq_none_iff : (register rs).findExact m path = none ↔ ¬Exact rs m path := by
  have hkept (l : List (Reg α)) : kept l = none ↔ l = [] := by
    cases l with
    | nil => exact iff_of_true rfl rfl
    | cons g l =>
      rw [kept_cons]
      exact iff_of_false (by rintro ⟨⟩) (by rintro ⟨⟩)
  rw [findExact_register, hkept, reverse_eq_nil_iff, filter_eq_nil_iff]
  constructor
  · rintro h ⟨g, hg, hdyn, hm, hmat⟩
    exact h g hg (keyed_iff.mpr ⟨hdyn, hm, hmat⟩)
  · intro h g hg hp
    exact h ⟨g, hg, keyed_iff.mp hp⟩

/-- **An exact route** is answered, and it is the route due. -/
theorem matchPath_exact (hrs : Distinct rs) (hx : Exact rs m path) (hb : Best rs m path g) :
    (register rs).matchPath m path = { route := some g.route, params := g.bindings path } := by
  obtain ⟨x, hxs, hdyn, hxm, hxp⟩ := hx
  have haddr : g.address = x.address := Precedes.antisymm hb.matches_ hxp (hb.precedes hxs hxm hxp)
    (precedes_static hdyn hxp hb.matches_)
  have hgd : g.dynamic = false := (dynamic_congr haddr).trans hdyn
  have hkeyed := keyed_iff.mpr ⟨hgd, hb.method_eq, hb.matches_⟩
  rw [Router.matchPath, findExact_register, hrs.filter_keyed hb.mem hkeyed, Reg.bindings,
    names_of_static hgd]
  rfl

/-- The end of `match`, at the node the walk ended at. -/
def Node.reply (n : Node α) (m : Method) (captured : List (List Byte)) : Match α :=
  match n.routes m.slot with
  | none => { methodMismatch := n.hasAnyRoute }
  | some r => { route := some r, params := r.paramNames.zip captured }

/-- **The walk's answer**, where no exact route matches. -/
theorem matchPath_walk (hx : ¬Exact rs m path) :
    ((register rs).matchPath m path = {} ∧
        ∀ q, Covers q (splitPath path) → (register rs).root.branch q = none) ∨
      ∃ q n, First (register rs).root (splitPath path) q ∧ (register rs).root.branch q = some n ∧
        (register rs).matchPath m path = n.reply m ((captures q (splitPath path)).take kMax) := by
  rw [Router.matchPath, findExact_eq_none_iff.mpr hx]
  dsimp only
  rw [backtrack_descend, Option.join_some]
  rcases search_spec (splitPath path) (register rs).root [] with ⟨hnone, hno⟩ |
    ⟨q, n, hfirst, hn, hsome⟩
  · rw [hnone]
    exact .inl ⟨rfl, hno⟩
  · rw [hsome, foldl_capture (Nat.zero_le _), nil_append]
    exact .inr ⟨q, n, hfirst, hn, rfl⟩

/-- A dynamic route is a branch. -/
theorem branch_address (hg : g ∈ rs) (hdyn : g.dynamic = true) :
    ((register rs).root.branch g.address).isSome :=
  (branch_register rs _).mpr (.inr ⟨g, hg, hdyn, prefix_rfl⟩)

/-- The first branch ends in the last route of the method registered there. -/
theorem routes_first {n : Node α} (hn : (register rs).root.branch q = some n) :
    n.routes m.slot =
      (rs.reverse.find? fun g => g.dynamic && decide (g.address = q) && decide (g.method = m)).map
        Reg.route := by
  rw [← routeAt_register, Node.routeAt, hn]
  rfl

theorem ends_iff {n : Node α} (hfirst : First (register rs).root (splitPath path) q)
    (hn : (register rs).root.branch q = some n) : Ends rs m path ↔ (n.routes m.slot).isSome := by
  rw [routes_first hn, Option.isSome_map, find?_isSome]
  constructor
  · rintro ⟨g, hg, hdyn, hm, hmat, hleast⟩
    have haddr : g.address = q := by
      refine Precedes.antisymm hmat hfirst.covers ?_ (hfirst.least _ hmat (branch_address hg hdyn))
      rcases (branch_register rs q).mp hfirst.exists_ with rfl | ⟨h, hh, hhd, hpre⟩
      · -- the empty branch covers nothing but the empty path
        have hnil : splitPath path = [] := by
          cases hs : splitPath path with
          | nil => rfl
          | cons _ _ =>
            have := hfirst.covers
            rw [hs] at this
            exact this.elim
        rw [Reg.Matches, hnil, covers_nil_iff] at hmat
        rw [hmat]
        trivial
      · exact hleast h hh hhd q hpre hfirst.covers
    exact ⟨g, mem_reverse.mpr hg, by simp [hdyn, hm, haddr]⟩
  · rintro ⟨g, hg, hp⟩
    simp only [Bool.and_eq_true, decide_eq_true_eq] at hp
    obtain ⟨⟨hdyn, haddr⟩, hm⟩ := hp
    refine ⟨g, mem_reverse.mp hg, hdyn, hm, ?_, fun h hh hhd p hpre hp => ?_⟩
    · rw [Reg.Matches, haddr]
      exact hfirst.covers
    · rw [haddr]
      exact hfirst.least p hp ((branch_register rs p).mpr (.inr ⟨h, hh, hhd, hpre⟩))

/-- **A dynamic route** is answered at the first branch, if it ends there. -/
theorem matchPath_ends (hx : ¬Exact rs m path) (he : Ends rs m path) (hb : Best rs m path g) :
    (register rs).matchPath m path = { route := some g.route, params := g.bindings path } := by
  have hgd : g.dynamic = true := by
    by_contra hgd
    exact hx ⟨g, hb.mem, Bool.not_eq_true _ ▸ hgd, hb.method_eq, hb.matches_⟩
  have hsome := branch_address hb.mem hgd
  rcases matchPath_walk hx with ⟨-, hno⟩ | ⟨q, n, hfirst, hn, heq⟩
  · rw [hno _ hb.matches_] at hsome
    cases hsome
  · have hroute := (ends_iff hfirst hn).mp he
    rw [routes_first hn, Option.isSome_map, find?_isSome] at hroute
    obtain ⟨x, hxs, hxp⟩ := hroute
    simp only [Bool.and_eq_true, decide_eq_true_eq] at hxp
    have hxmat : x.Matches path := by
      rw [Reg.Matches, hxp.1.2]
      exact hfirst.covers
    have haddr : g.address = q := Precedes.antisymm hb.matches_ hfirst.covers
      (hxp.1.2 ▸ hb.precedes (mem_reverse.mp hxs) hxp.2 hxmat) (hfirst.least _ hb.matches_ hsome)
    have hfind := hb.find (p := fun h => h.dynamic && decide (h.address = q) && decide
      (h.method = m))
      (by simp [hgd, haddr, hb.method_eq]) (by
        intro h hp
        simp only [Bool.and_eq_true, decide_eq_true_eq] at hp
        refine ⟨hp.2, ?_, hp.1.2.trans haddr.symm⟩
        rw [Reg.Matches, hp.1.2]
        exact hfirst.covers)
    rw [heq, Node.reply, routes_first hn, hfind, Option.map_some, Reg.bindings, haddr]
    rfl

/-! ## The two decisions -/

/-- A route of the method is found exactly if one matches, and it is the route due, with its
parameters. -/
def Finds (rs : List (Reg α)) (m : Method) (path : List Byte) : Prop :=
  (∀ g, Best rs m path g →
      (register rs).matchPath m path = { route := some g.route, params := g.bindings path }) ∧
    (((register rs).matchPath m path).route = none ↔ ¬Served rs m path)

theorem Exact.served (h : Exact rs m path) : Served rs m path := by
  obtain ⟨g, hg, -, hm, hmat⟩ := h
  exact ⟨g, hg, hm, hmat⟩

theorem Ends.served (h : Ends rs m path) : Served rs m path := by
  obtain ⟨g, hg, -, hm, hmat, -⟩ := h
  exact ⟨g, hg, hm, hmat⟩

/-- A route that the walk answers is one that matches. -/
theorem served_of_route (h : ((register rs).matchPath m path).route ≠ none) :
    Exact rs m path ∨ Ends rs m path := by
  by_cases hx : Exact rs m path
  · exact .inl hx
  · rcases matchPath_walk hx with ⟨heq, -⟩ | ⟨q, n, hfirst, hn, heq⟩
    · rw [heq] at h
      exact absurd rfl h
    · refine .inr ((ends_iff hfirst hn).mpr ?_)
      rw [heq, Node.reply] at h
      cases hr : n.routes m.slot with
      | none =>
        rw [hr] at h
        exact absurd rfl h
      | some r => rfl

/-- **The route due is found** exactly if it is an exact one, or there is none, or the first branch
that covers the path ends in a route of the method. -/
theorem finds_iff (hrs : Distinct rs) (m : Method) (path : List Byte) :
    Finds rs m path ↔ Exact rs m path ∨ ¬Served rs m path ∨ Ends rs m path := by
  constructor
  · rintro ⟨hbest, -⟩
    by_cases hs : Served rs m path
    · obtain ⟨g, hg⟩ := exists_best hs
      have hroute : ((register rs).matchPath m path).route ≠ none := by
        rw [hbest g hg]
        exact nofun
      exact (served_of_route hroute).imp id .inr
    · exact .inr (.inl hs)
  · intro hcond
    have hbest (g : Reg α) (hb : Best rs m path g) :
        (register rs).matchPath m path = { route := some g.route, params := g.bindings path } := by
      by_cases hx : Exact rs m path
      · exact matchPath_exact hrs hx hb
      · rcases hcond with h | h | h
        · exact absurd h hx
        · exact absurd ⟨g, hb.mem, hb.method_eq, hb.matches_⟩ h
        · exact matchPath_ends hx h hb
    refine ⟨hbest, fun hnone hs => ?_, fun hs => ?_⟩
    · obtain ⟨g, hg⟩ := exists_best hs
      rw [hbest g hg] at hnone
      cases hnone
    · by_contra hroute
      rcases served_of_route hroute with h | h
      · exact hs h.served
      · exact hs h.served

/-- A `POST` below a literal beside a `GET` below `:a`. -/
def shadowed : List (Reg ℕ) :=
  [{ method := .post, path := ascii "/x/:b", target := 1 },
    { method := .get, path := ascii "/:a/:b", target := 2 }]

/-- A wildcard beside a longer pattern. -/
def overgrown : List (Reg ℕ) :=
  [{ method := .get, path := ascii "/a/:b/c", target := 1 },
    { method := .get, path := ascii "/*rest", target := 2 }]

/-- A route registered again, and what is left of it in memory. -/
def replaced : List (Reg ℕ) :=
  [{ method := .get, path := ascii "/x", target := 1 },
    { method := .get, path := ascii "/x", target := 2, junk := { target := 3 } }]

/-- An exact route for `POST`. -/
def postUsers : List (Reg ℕ) := [{ method := .post, path := ascii "/users", target := 1 }]

theorem finds_iff_postUsers : Distinct postUsers ∧ Finds postUsers .post (ascii "/users") :=
  ⟨by decide +kernel, (finds_iff (by decide +kernel) .post (ascii "/users")).mpr
    (.inl ⟨_, mem_cons_self, by decide +kernel, rfl, by decide +kernel⟩)⟩

/-- **Three routes that are not found**: the walk ends below the literal, where only a `POST` is,
and at the node of a longer pattern, where nothing is; and a route that was replaced is not the new
one. -/
theorem shadowed_not_found : ¬Finds shadowed .get (ascii "/x/1") ∧
    ¬Finds overgrown .get (ascii "/a/1") ∧ ¬Finds replaced .get (ascii "/x") := by
  refine ⟨fun h => ?_, fun h => ?_, fun h => ?_⟩
  · exact h.2.mp (by decide +kernel) ⟨_, mem_cons_of_mem _ mem_cons_self, rfl, by decide +kernel⟩
  · exact h.2.mp (by decide +kernel) ⟨_, mem_cons_of_mem _ mem_cons_self, rfl, by decide +kernel⟩
  · have hmatch : ∃ g ∈ replaced, g.method = .get ∧ g.Matches (ascii "/x") :=
      ⟨_, mem_cons_self, rfl, by decide +kernel⟩
    obtain ⟨g, hg⟩ := exists_best hmatch
    have hthree : ((register replaced).matchPath .get (ascii "/x")).route.map Route.target = some
      3 := by
      decide +kernel
    have htarget : g.target = 1 ∨ g.target = 2 := by
      rcases mem_cons.mp hg.mem with rfl | hmem
      · exact .inl rfl
      · rw [mem_singleton.mp hmem]
        exact .inr rfl
    rw [h.1 g hg] at hthree
    have hg3 : g.target = 3 := Option.some.inj hthree
    omega

/-- Another method has a route that matches, and this one has not. -/
def Mismatch (rs : List (Reg α)) (m : Method) (path : List Byte) : Prop :=
  ¬Served rs m path ∧ ∃ g ∈ rs, g.method ≠ m ∧ g.Matches path

/-- **The flag**: the first branch ends in a route, but in none of this method. -/
theorem methodMismatch_iff : ((register rs).matchPath m path).methodMismatch = true ↔
    ¬Exact rs m path ∧ ¬Ends rs m path ∧ ∃ m', Ends rs m' path := by
  by_cases hx : Exact rs m path
  · obtain ⟨r, hr⟩ := Option.ne_none_iff_exists'.mp (findExact_eq_none_iff.not.mpr (not_not.mpr hx))
    rw [Router.matchPath, hr]
    exact iff_of_false Bool.false_ne_true fun h => h.1 hx
  · rcases matchPath_walk hx with ⟨heq, hno⟩ | ⟨q, n, hfirst, hn, heq⟩
    · rw [heq]
      refine iff_of_false Bool.false_ne_true ?_
      rintro ⟨-, -, m', g, hg, hdyn, -, hmat, -⟩
      have hsome := branch_address hg hdyn
      rw [hno _ hmat] at hsome
      cases hsome
    · rw [heq, Node.reply]
      simp only [ends_iff hfirst hn, hx, not_false_eq_true, true_and]
      cases hr : n.routes m.slot with
      | none => simpa using hasAnyRoute_iff
      | some r => exact iff_of_false Bool.false_ne_true fun h => h.1 rfl

/-- **A mismatch is told** exactly if: where the method has a route that matches, it is an exact
one, or the first branch ends in one of the method or in none at all; and where another method has
one, the first branch ends in a route. -/
theorem mismatch_told_iff (rs : List (Reg α)) (m : Method) (path : List Byte) :
    (((register rs).matchPath m path).methodMismatch = true ↔ Mismatch rs m path) ↔
      (Served rs m path → Exact rs m path ∨ Ends rs m path ∨ ∀ m', ¬Ends rs m' path) ∧
        (Mismatch rs m path → ∃ m', Ends rs m' path) := by
  rw [methodMismatch_iff]
  constructor
  · intro h
    refine ⟨fun hs => ?_, fun hm => (h.mpr hm).2.2⟩
    by_contra hnot
    push Not at hnot
    exact (h.mp ⟨hnot.1, hnot.2.1, hnot.2.2⟩).1 hs
  · rintro ⟨hserved, hmis⟩
    refine ⟨?_, fun hm => ⟨fun hx => hm.1 hx.served, fun he => hm.1 he.served, hmis hm⟩⟩
    rintro ⟨hx, he, m', hend⟩
    have hs : ¬Served rs m path := by
      intro hs
      rcases hserved hs with h | h | h
      · exact hx h
      · exact he h
      · exact h m' hend
    obtain ⟨g, hg, -, hm, hmat, -⟩ := hend
    exact ⟨hs, g, hg, fun heq => hs ⟨g, hg, heq, hmat⟩, hmat⟩

/-- **Three wrong flags**: an exact route of another method is not seen, nor a wildcard behind a
longer pattern, and a route of the method is reported missing. -/
theorem exactOnly_mismatch_untold :
    ¬(((register postUsers).matchPath .get (ascii "/users")).methodMismatch = true ↔
        Mismatch postUsers .get (ascii "/users")) ∧
      ¬(((register overgrown).matchPath .post (ascii "/a/1")).methodMismatch = true ↔
        Mismatch overgrown .post (ascii "/a/1")) ∧
      ¬(((register shadowed).matchPath .get (ascii "/x/1")).methodMismatch = true ↔
        Mismatch shadowed .get (ascii "/x/1")) := by
  refine ⟨fun h => ?_, fun h => ?_, fun h => ?_⟩
  · refine absurd (h.mpr ⟨?_, _, mem_cons_self, nofun, by decide +kernel⟩) (by decide +kernel)
    rintro ⟨g, hg, hm, -⟩
    rw [mem_singleton.mp hg] at hm
    cases hm
  · refine absurd (h.mpr ⟨?_, _, mem_cons_of_mem _ mem_cons_self, nofun, by decide +kernel⟩)
      (by decide +kernel)
    rintro ⟨g, hg, hm, -⟩
    rcases mem_cons.mp hg with rfl | hg
    · cases hm
    · rw [mem_singleton.mp hg] at hm
      cases hm
  · exact (h.mp (by decide +kernel)).1
      ⟨_, mem_cons_of_mem _ mem_cons_self, rfl, by decide +kernel⟩

end Cornet.Http.Server
