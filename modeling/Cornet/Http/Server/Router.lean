import Cornet.Http.Protocol
import Cornet.Machinery.Table

/-!
# Http/Server/Router — the route tables and the walk over them (`src/http/server/router.cc`)

    exact   "1/a/b"  ↦  route              root ──lit a──▸ · ──:──▸ · ──lit c──▸ (routes by method)
                                                            └──*──▸ (routes by method)

A path without `:` or `*` is a key of the exact table; every other path is a branch of the trie.
The walk takes the literal child first, then `:`, then `*`, and keeps the alternatives it passed on
a stack.

A segment of a path carries the rest of the path from its first byte on, which is what a wildcard
captures.
-/

namespace Cornet.Http.Server

/-- `method_slot`. -/
def Method.slot : Method → Fin 10
  | get =>
    0 | head => 1 | post => 2 | put => 3 | delete => 4 | patch => 5 | options => 6 | connect => 7
  | trace => 8 | unknown => 9

/-- `route_t`: its target is whatever the handlers are. -/
structure Route (α : Type) where
  target : α
  paramNames : List (List Byte) := []
  deriving DecidableEq, Repr

/-! ## Paths -/

/-- A segment: its text, and the path from it on. -/
structure Segment where
  text : List Byte
  rest : List Byte
  deriving DecidableEq, Repr

/-- The loop of `split_path`; a step takes at least one byte. -/
def splitFrom : ℕ → List Byte → List Segment
  | 0, _ => []
  | fuel + 1, path =>
    let p := path.dropWhile (· = 47)
    if p = [] then [] else ⟨p.takeWhile (· ≠ 47), p⟩ :: splitFrom fuel (p.dropWhile (· ≠ 47))

/-- `split_path`. -/
def splitPath (path : List Byte) : List Segment := splitFrom path.length path

/-- The segment texts. -/
def segments (path : List Byte) : List (List Byte) := (splitPath path).map Segment.text

/-- `normalise`. -/
def normalise (path : List Byte) : List Byte :=
  let out := (segments path).flatMap (47 :: ·)
  if out = [] then [47] else out

/-- `exact_key`. -/
def exactKey (m : Method) (path : List Byte) : List Byte := digit m.slot :: path

/-- The loop of `normalise_key_into`, a scan of its own: `none` when the buffer is too small. -/
def keyFrom (cap : ℕ) : ℕ → List Byte → List Byte → Option (List Byte)
  | 0, out, _ => some out
  | fuel + 1, out, path =>
    let p := path.dropWhile (· = 47)
    if p = [] then some out
    else
      let seg := p.takeWhile (· ≠ 47)
      if cap < out.length + 1 + seg.length then none
      else keyFrom cap fuel (out ++ 47 :: seg) (p.dropWhile (· ≠ 47))

/-- `normalise_key_into`. -/
def normaliseKeyInto (m : Method) (path : List Byte) (cap : ℕ) : Option (List Byte) :=
  if cap < 2 then none
  else (keyFrom cap path.length [digit m.slot] path).map fun out =>
    if out.length = 1 then out ++ [47] else out

/-! ## The tables -/

/-- `node_t`. -/
structure Node (α : Type) where
  literal : List (List Byte × Node α) := []
  param : Option (Node α) := none
  wildcard : Option (Node α) := none
  routes : Fin 10 → Option (Route α) := fun _ => none

namespace Node

variable {α : Type}

instance : Inhabited (Node α) := ⟨{}⟩

/-- `has_any_route`. -/
def hasAnyRoute (n : Node α) : Bool := (List.finRange 10).any fun i => (n.routes i).isSome

def setRoute (n : Node α) (slot : Fin 10) (r : Route α) : Node α :=
  { n with routes := fun i => if i = slot then some r else n.routes i }

/-- The `i`-th parameter of a route is named by its `i`-th dynamic segment. -/
def named (r : Route α) (seg : List Byte) : Route α :=
  { r with paramNames := r.paramNames ++ [seg.tail] }

/-- The walk of `add`: the nodes on the way are made, and nothing follows a wildcard. -/
def insert (slot : Fin 10) : Route α → List (List Byte) → Node α → Node α
  | r, [], n => n.setRoute slot r
  | r, seg :: segs, n =>
    if seg.head? = some 58 then
      { n with param := some (insert slot (named r seg) segs (n.param.getD {})) }
    else if seg.head? = some 42 then
      { n with wildcard := some ((n.wildcard.getD {}).setRoute slot (named r seg)) }
    else
      { n with literal := Table.upsert seg (fun old => insert slot r segs (old.getD {})) n.literal }

end Node

/-- A segment that starts with `:` or `*`. -/
def isDynamic (seg : List Byte) : Bool := seg.head? = some 58 || seg.head? = some 42

/-- `router_t`. -/
structure Router (α : Type) where
  exact : Table (List Byte) (Route α) := []
  root : Node α := {}

namespace Router

variable {α : Type}

/-- `add`.  An exact route registered again is read through a pointer whose owner `emplace` has
destroyed by then: what is stored is `junk`. -/
def add (r : Router α) (m : Method) (path : List Byte) (route junk : Route α) : Router α :=
  if (segments path).any isDynamic then
    { r with root := r.root.insert m.slot route (segments path) }
  else
    { r with
      exact := r.exact.upsert (exactKey m (normalise path)) fun old =>
        if old.isSome then junk else route }

end Router

/-! ## The walk -/

/-- `alt_t`. -/
inductive Alt
  | param | wildcard
  deriving DecidableEq, Repr

/-- `frame_t`: `seg :: segs` is the path from `segs[seg]` on. -/
structure Frame (α : Type) where
  node : Node α
  seg : Segment
  segs : List Segment
  params : ℕ
  alt : Alt

/-- `param_slots_t::kMax`. -/
def kMax : ℕ := 8

/-- `captured[captured_n++]`, while there is a slot. -/
def capture (captured : List (List Byte)) (v : List Byte) : List (List Byte) :=
  if captured.length < kMax then captured ++ [v] else captured

/-- Where the walk stands: `matched`, `node`, `captured` and the stack. -/
structure Walk (α : Type) where
  matched : Bool
  node : Node α
  captured : List (List Byte)
  stack : List (Frame α)

section Walk

variable {α : Type}

/-- The alternatives left behind at a literal child. -/
def passed (node : Node α) (seg : Segment) (segs : List Segment) (params : ℕ) : List (Frame α) :=
  if node.param.isSome then [⟨node, seg, segs, params, .param⟩]
  else if node.wildcard.isSome then [⟨node, seg, segs, params, .wildcard⟩] else []

/-- The alternative left behind at a `:` child. -/
def skipped (node : Node α) (seg : Segment) (segs : List Segment) (params : ℕ) : List (Frame α) :=
  if node.wildcard.isSome then [⟨node, seg, segs, params, .wildcard⟩] else []

/-- `try_descend`. -/
def descend : List Segment → Node α → List (List Byte) → List (Frame α) → Walk α
  | [], node, captured, stack => ⟨true, node, captured, stack⟩
  | seg :: segs, node, captured, stack =>
    match Table.find seg.text node.literal with
    | some child => descend segs child captured (passed node seg segs captured.length ++ stack)
    | none =>
      match node.param with
      | some child =>
        descend segs child (capture captured seg.text)
          (skipped node seg segs captured.length ++ stack)
      | none =>
        match node.wildcard with
        | some child => ⟨true, child, capture captured seg.rest, stack⟩
        | none => ⟨false, node, captured, stack⟩

/-- One round of the backtracking loop, from the frame on top of the stack. -/
def resume (f : Frame α) (captured : List (List Byte)) (stack : List (Frame α)) : Walk α :=
  let captured := captured.take f.params
  match f.alt, f.node.param with
  | .param, some child =>
    descend f.segs child (capture captured f.seg.text)
      (skipped f.node f.seg f.segs captured.length ++ stack)
  | _, _ =>
    match f.node.wildcard with
    | some child => ⟨true, child, capture captured f.seg.rest, stack⟩
    | none => ⟨false, f.node, captured, stack⟩

/-- The backtracking loop: `none` if these rounds are too few, else the node it ends at, if any. -/
def backtrack : ℕ → Walk α → Option (Option (Node α × List (List Byte)))
  | 0, _ => none
  | fuel + 1, w =>
    if w.matched then some (some (w.node, w.captured))
    else
      match w.stack with
      | [] => some none
      | f :: stack => backtrack fuel (resume f w.captured stack)

/-- The rounds the loop can take: a segment doubles them. -/
def rounds (segs : List Segment) : ℕ := 2 ^ (segs.length + 1)

end Walk

/-- `match_t`, and the parameters bound. -/
structure Match (α : Type) where
  route : Option (Route α) := none
  methodMismatch : Bool := false
  params : List (List Byte × List Byte) := []
  deriving DecidableEq, Repr

namespace Router

variable {α : Type}

/-- The exact table's answer. -/
def findExact (r : Router α) (m : Method) (path : List Byte) : Option (Route α) :=
  Table.find ((normaliseKeyInto m path 256).getD (exactKey m (normalise path))) r.exact

/-- `match`. -/
def matchPath (r : Router α) (m : Method) (path : List Byte) : Match α :=
  match r.findExact m path with
  | some route => { route := some route }
  | none =>
    let segs := splitPath path
    match (backtrack (rounds segs) (descend segs r.root [] [])).join with
    | none => {}
    | some (node, captured) =>
      match node.routes m.slot with
      | none => { methodMismatch := node.hasAnyRoute }
      | some route => { route := some route, params := route.paramNames.zip captured }

end Router

end Cornet.Http.Server
