import Mathlib.Algebra.BigOperators.Group.Finset.Basic
import Mathlib.Algebra.Order.Ring.Rat
import Mathlib.Data.Finset.Card
import Mathlib.Data.Fintype.Basic
import Mathlib.Data.List.MinMax
import Mathlib.Data.List.Sort

/-!
# Expert caches

The simulations of `scripts/moe_study/analyze.py`: a cache of experts for each layer, with the
policies of `simulate` and with the oracle of `belady`. The routing is an array over tokens, layers
and the experts of a row. A set is iterated in an order of its own at each place of the run, and
`max` takes the first of the largest.
-/

namespace RadixForge.MoeStudy

variable {L k : ℕ}

/-- The routing of one token: the experts of each layer. -/
abbrev Routing (L k : ℕ) := Fin L → Fin k → ℕ

/-- The row of a layer. -/
def row (token : Routing L k) (layer : Fin L) : List ℕ := List.ofFn (token layer)

/-- What the simulations use of a `Req`. -/
structure Req (L k : ℕ) where
  nPrompt : ℕ
  routes : List (Routing L k)

/-- `decode`. -/
def Req.decode (r : Req L k) : List (Routing L k) := r.routes.drop r.nPrompt

/-- A profile: the scores of the experts of each layer. -/
abbrev Profile (L : ℕ) := Fin L → List ℚ

/-- The profiles of a request under their names. -/
abbrev Profiles (L : ℕ) := String → Option (Profile L)

/-- The policy of `simulate`. -/
inductive Policy where
  | lru
  | prefetch (name : String)

section Simulate

/-- The cache of a layer is an `OrderedDict`, the oldest expert first. -/
abbrev Cache := List ℕ

/-- `move_to_end`. -/
def moveToEnd (cache : Cache) (e : ℕ) : Cache := cache.erase e ++ [e]

/-- A new expert goes to the end, and the oldest one goes out if there are too many. -/
def addLast (c : ℕ) (cache : Cache) (e : ℕ) : Cache :=
  let cache := cache ++ [e]
  if c < cache.length then cache.tail else cache

/-- The local variables of `simulate`. -/
structure Simulation (L : ℕ) where
  caches : Fin L → Cache := fun _ => []
  misses : ℕ := 0
  prefetch : ℕ := 0
  accesses : ℕ := 0

/-- One access of a token. -/
def access (c : ℕ) (layer : Fin L) (sim : Simulation L) (e : ℕ) : Simulation L :=
  if e ∈ sim.caches layer then
    { sim with
      accesses := sim.accesses + 1
      caches := Function.update sim.caches layer (moveToEnd (sim.caches layer) e) }
  else
    { sim with
      accesses := sim.accesses + 1
      misses := sim.misses + 1
      caches := Function.update sim.caches layer (addLast c (sim.caches layer) e) }

/-- The accesses of a token, layer by layer. -/
def accessToken (c : ℕ) (sim : Simulation L) (token : Routing L k) : Simulation L :=
  (List.finRange L).foldl (fun sim layer => (row token layer).foldl (access c layer) sim) sim

/-- One expert is loaded ahead. -/
def prefetchExpert (c : ℕ) (layer : Fin L) (sim : Simulation L) (e : ℕ) : Simulation L :=
  if e ∈ sim.caches layer then
    { sim with caches := Function.update sim.caches layer (moveToEnd (sim.caches layer) e) }
  else
    { sim with
      prefetch := sim.prefetch + 1
      caches := Function.update sim.caches layer (addLast c (sim.caches layer) e) }

/-- `np.argsort(-p, kind="stable")`. -/
def argsortDescending (scores : List ℚ) : List ℕ :=
  ((List.finRange scores.length).mergeSort fun i j => scores.get j ≤ scores.get i).map Fin.val

/-- The loads before a request. -/
def prefetchRequest (c : ℕ) (policy : Policy) (profiles : Profiles L) (sim : Simulation L) :
    Option (Simulation L) :=
  match policy with
  | .lru => some sim
  | .prefetch name =>
    (profiles name).map fun p =>
      if 0 < ∑ layer, (p layer).sum then
        (List.finRange L).foldl (fun sim layer =>
          ((argsortDescending (p layer)).take c).reverse.foldl (prefetchExpert c layer) sim) sim
      else sim

/-- One request of the simulation. -/
def simulateRequest (c : ℕ) (policy : Policy) (sim : Simulation L) (entry : Req L k × Profiles L) :
    Option (Simulation L) :=
  (prefetchRequest c policy entry.2 sim).map fun sim => entry.1.decode.foldl (accessToken c) sim

/-- `simulate`. It throws without requests, or if there are not as many profiles. -/
def simulate (reqs : List (Req L k)) (profiles : List (Profiles L)) (c : ℕ) (policy : Policy) :
    Option (ℕ × ℕ × ℕ) :=
  if reqs.isEmpty ∨ reqs.length ≠ profiles.length then none
  else
    ((reqs.zip profiles).foldlM (simulateRequest c policy) {}).map fun sim =>
      (sim.misses, sim.prefetch, sim.accesses)

end Simulate

section Belady

/-- An order in which the elements of a set are iterated. -/
structure SetOrder where
  elements : Finset ℕ → List ℕ
  nodup : ∀ s, (elements s).Nodup
  mem : ∀ s x, x ∈ elements s ↔ x ∈ s

/-- The next uses of the experts; the head of a list is what `pop` takes. -/
abbrev NextUse := ℕ → List ℕ

/-- `next_use`, built from the last token on. -/
def buildNextUse (seq : List (List ℕ)) : NextUse :=
  seq.zipIdx.foldr (fun entry nextUse =>
    entry.1.foldl (fun nextUse e => Function.update nextUse e (entry.2 :: nextUse e)) nextUse)
      fun _ => []

/-- `next_use[e].pop()` for the needed experts. -/
def popNeeded (needed : Finset ℕ) (nextUse : NextUse) : NextUse :=
  fun e => if e ∈ needed then (nextUse e).tail else nextUse e

/-- The key of a victim. -/
def victimKey (nextUse : NextUse) (x : ℕ) : ℕ := (nextUse x).head?.getD (1 <<< 60)

/-- One needed expert. `max` throws without a victim. -/
def serveExpert (order : SetOrder) (c : ℕ) (needed : Finset ℕ) (nextUse : NextUse)
    (state : Finset ℕ × ℕ) (e : ℕ) :
    Option (Finset ℕ × ℕ) :=
  if e ∈ state.1 then some state
  else if c ≤ state.1.card then
    ((order.elements (state.1 \ needed)).argmax (victimKey nextUse)).map fun victim =>
      (insert e (state.1.erase victim), state.2 + 1)
  else some (insert e state.1, state.2 + 1)

/-- One token of a layer. The orders are those of this token: one for the needed experts, and one
for the victims of each of them. -/
def serveToken (order : SetOrder) (victimOrder : ℕ → SetOrder) (c : ℕ) (needed : Finset ℕ)
    (nextUse : NextUse) (state : Finset ℕ × ℕ) : Option (Finset ℕ × ℕ) :=
  (order.elements needed).foldlM
    (fun state e => serveExpert (victimOrder e) c needed nextUse state e) state

/-- The orders of the sets of a run: by layer and token for the needed experts, and by the expert
besides for the victims. -/
structure SetOrders where
  needed : ℕ → ℕ → SetOrder
  victims : ℕ → ℕ → ℕ → SetOrder

/-- The loop over the tokens of a layer. -/
def serveTokens (orders : SetOrders) (layer c : ℕ) :
    ℕ → List (List ℕ) → NextUse → Finset ℕ × ℕ → Option (Finset ℕ × ℕ)
  | _, [], _, state => some state
  | t, experts :: rest, nextUse, state =>
    let needed := experts.toFinset
    let nextUse := popNeeded needed nextUse
    (serveToken (orders.needed layer t) (orders.victims layer t) c needed nextUse state).bind
      (serveTokens orders layer c (t + 1) rest nextUse)

/-- The misses after a layer. -/
def serveLayer (orders : SetOrders) (c : ℕ) (stream : List (Routing L k)) (misses : ℕ)
    (layer : Fin L) : Option ℕ :=
  let seq := stream.map fun token => row token layer
  (serveTokens orders layer c 0 seq (buildNextUse seq) (∅, misses)).map Prod.snd

/-- The concatenated decode stream. -/
def decodeStream (reqs : List (Req L k)) : List (Routing L k) := reqs.flatMap Req.decode

/-- `belady`. It throws if there is nothing to concatenate. -/
def belady (orders : SetOrders) (reqs : List (Req L k)) (c : ℕ) : Option (ℕ × ℕ) :=
  let stream := decodeStream reqs
  if stream.isEmpty then none
  else ((List.finRange L).foldlM (serveLayer orders c stream) 0).map fun misses =>
    (misses, stream.length * L * k)

end Belady

end RadixForge.MoeStudy
