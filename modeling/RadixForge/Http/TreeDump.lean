import RadixForge.Http.Envelopes
import RadixForge.Json.Limit
import RadixForge.Session.Invariant

/-!
# The dump of the tree

`/admin/tree/dump` writes the tree as a JSON text. The text is a document that shows every node
once, with its counts and its sequences, below its parent. The numbers are read back as they are
printed.
-/

namespace RadixForge

open Library

variable {D : Type} {floats : Floats D}

namespace RadixTree

/-- `node_to_json`. -/
def nodeToJson (t : RadixTree) : ℕ → NodeId → ℕ → Bytes
  | 0, _, _ => []
  | fuel + 1, node, cumulativeTokens =>
    match t.nodes node with
    | none => []
    | some x =>
      let depth := cumulativeTokens + x.tokens.length
      ascii "\x7b\"token_count\":" ++
        (natText x.tokens.length ++ (ascii ",\"cumulative_tokens\":" ++ (natText depth ++
        (ascii ",\"ref_count\":" ++
          (natText x.refCount ++ (ascii ",\"canonical_len\":" ++ (natText x.canonicalLen ++
        (ascii ",\"last_access_tick\":" ++ (natText x.lastAccessTick ++
        (ascii ",\"seq_ids\":[" ++ (separated (x.seqIds.toList.map natText) ++
        (ascii "],\"ready_seq_ids\":[" ++ (separated (x.readySeqIds.toList.map natText) ++
        (ascii "],\"children\":[" ++
          (separated ((t.childList x).map fun child => nodeToJson t fuel child depth) ++
          ascii "]\x7d")))))))))))))))

/-- `to_json`. -/
def toJson (t : RadixTree) : Bytes :=
  ascii "\x7b\"tick\":" ++
    (natText t.tick ++ (ascii ",\"active_sequences\":" ++ (natText t.activeSequenceCount ++
    (ascii ",\"root\":" ++ (t.nodeToJson (t.nextId + 1) rootId 0 ++ ascii "\x7d")))))

end RadixTree

/-- `std::stod` reads what `std::to_string` prints of the numbers below a limit as finite numbers.
-/
def Floats.ReadsNaturals (floats : Floats D) (limit : ℕ) : Prop :=
  ∀ n < limit, ∃ d, floats.stod (natText n) = some d ∧ floats.isFinite d = true

/-- The numbers of a tree are below a limit. -/
structure RadixTree.Below (t : RadixTree) (limit : ℕ) : Prop where
  tick : t.tick < limit
  active : t.activeSequenceCount < limit
  node : ∀ n x, t.nodes n = some x → (t.pathTokens n).length < limit ∧ x.tokens.length < limit ∧
    x.refCount < limit ∧
    x.canonicalLen < limit ∧ x.lastAccessTick < limit
  ids : ∀ n x, t.nodes n = some x → ∀ i ∈ x.seqIds.toList ++ x.readySeqIds.toList, i < limit

/-- A field of an object holds a number. -/
def NumberAt (floats : Floats D) (v : JsonValue D) (key : String) (n : ℕ) : Prop :=
  ∃ d, floats.stod (natText n) = some d ∧ v.field (ascii key) = .number d

/-- A field of an object holds an array of numbers. -/
def NumbersAt (floats : Floats D) (v : JsonValue D) (key : String) (ns : List ℕ) : Prop :=
  ∃ ds, List.Forall₂ (fun n d => floats.stod (natText n) = some d) ns ds ∧
    v.field (ascii key) = .array (ds.map .number)

/-- A value shows a node with everything below it, which is listed. -/
inductive Shows (floats : Floats D) (t : RadixTree) :
    NodeId → JsonValue D → List NodeId → Prop where
  | node {n : NodeId} {x : RadixNode} {v : JsonValue D} (below : List (JsonValue D × List NodeId))
      (hx : t.nodes n = some x)
      (htokens : NumberAt floats v "token_count" x.tokens.length)
      (hdepth : NumberAt floats v "cumulative_tokens" (t.pathTokens n).length)
      (hrefs : NumberAt floats v "ref_count" x.refCount)
        (hlen : NumberAt floats v "canonical_len" x.canonicalLen)
      (htick : NumberAt floats v "last_access_tick" x.lastAccessTick)
        (hids : NumbersAt floats v "seq_ids" x.seqIds.toList)
      (hready : NumbersAt floats v "ready_seq_ids" x.readySeqIds.toList)
      (hfield : v.field (ascii "children") = .array (below.map Prod.fst))
      (hchildren : List.Forall₂ (fun c entry => Shows floats t c entry.1 entry.2)
        (t.childList x) below) :
      Shows floats t n v (n :: (below.map Prod.snd).flatten)

section Arrays

/-- A list of partners of the members of a list. -/
theorem exists_partners {α β : Type*} {R : α → β → Prop} {as : List α} (h : ∀ a ∈ as, ∃ b, R a b) :
    ∃ bs, List.Forall₂ R as bs := by
  induction as with
  | nil => exact ⟨[], .nil⟩
  | cons a as ih =>
    obtain ⟨b, hb⟩ := h a List.mem_cons_self
    obtain ⟨bs, hbs⟩ := ih fun a' ha' => h a' (List.mem_cons_of_mem a ha')
    exact ⟨b :: bs, .cons hb hbs⟩

/-- The texts of the members of a list, which show their partners, are an array. -/
theorem value_partners {α β : Type*} {n : ℕ} {text : α → Bytes} {value : β → JsonValue D}
    {as : List α} {bs : List β}
    (h : List.Forall₂ (fun a b => Value floats n (text a) (value b)) as bs) :
    Value floats (n + 1) (openBracket :: (separated (as.map text) ++ [closeBracket]))
      (.array (bs.map value)) := by
  suffices hitems : ∃ items : List (Bytes × JsonValue D), items.map Prod.fst = as.map text ∧
      items.map Prod.snd = bs.map value ∧ ∀ i ∈ items, Value floats n i.1 i.2 by
    obtain ⟨items, htexts, hvalues, hall⟩ := hitems
    exact htexts ▸ hvalues ▸ value_array items hall
  induction h with
  | nil => exact ⟨[], rfl, rfl, fun _ hi => absurd hi List.not_mem_nil⟩
  | @cons a b as bs hfirst _ ih =>
    obtain ⟨items, htexts, hvalues, hall⟩ := ih
    refine ⟨(text a, value b) :: items, ?_, ?_, List.forall_mem_cons.mpr ⟨hfirst, hall⟩⟩
    · rw [List.map_cons, List.map_cons, htexts]
    · rw [List.map_cons, List.map_cons, hvalues]

variable {limit : ℕ}

/-- A printed natural number is a value. -/
theorem value_natText (hreads : floats.ReadsNaturals limit) {n : ℕ} (hn : n < limit) (depth : ℕ) :
    ∃ d, floats.stod (natText n) = some d ∧ Value floats depth (natText n) (.number d) := by
  obtain ⟨d, hd, hfinite⟩ := hreads n hn
  exact ⟨d, hd, .number depth ⟨[], natText n, [], [], .inl rfl, integerText_natText n, .inl rfl,
    .inl rfl, by simp⟩ hd hfinite⟩

/-- Printed natural numbers are an array. -/
theorem value_natTexts (hreads : floats.ReadsNaturals limit) {ns : List ℕ}
    (hns : ∀ n ∈ ns, n < limit) (depth : ℕ) :
    ∃ ds, List.Forall₂ (fun n d => floats.stod (natText n) = some d) ns ds ∧
      Value floats (depth + 1) (openBracket :: (separated (ns.map natText) ++ [closeBracket]))
        (.array (ds.map .number)) := by
  obtain ⟨ds, hds⟩ := exists_partners fun n hn => value_natText hreads (hns n hn) depth
  exact ⟨ds, hds.imp fun _ _ h => h.1, value_partners (hds.imp fun _ _ h => h.2)⟩

end Arrays

namespace Shape

variable {t : RadixTree} {path : NodeId → List Token} {limit : ℕ}

/-- The living nodes at or below a node, each once. -/
def Covers (t : RadixTree) (path : NodeId → List Token) (n : NodeId) (shown : List NodeId) : Prop :=
  shown.Nodup ∧ ∀ m, m ∈ shown ↔ t.Alive m ∧ path n <+: path m

/-- What is below some children of a node, each once. -/
theorem covers_flatten (h : Shape t path) {n : NodeId} {cs : List NodeId} (hnodup : cs.Nodup)
    (hcs : ∀ c ∈ cs, ∃ key, t.childAt n key = some c) {below : List (List NodeId)}
    (hbelow : List.Forall₂ (Covers t path) cs below) :
    below.flatten.Nodup ∧ ∀ m, m ∈ below.flatten ↔ t.Alive m ∧ ∃ c ∈ cs, path c <+: path m := by
  induction hbelow with
  | nil => simp
  | @cons c shown cs below hfirst _ ih =>
    obtain ⟨hc, hrest⟩ := List.nodup_cons.mp hnodup
    obtain ⟨hnodup', hmem⟩ := ih hrest fun d hd => hcs d (List.mem_cons_of_mem c hd)
    rw [List.flatten_cons]
    refine ⟨List.nodup_append.mpr ⟨hfirst.1, hnodup', fun m hm m' hm' heq => ?_⟩, fun m => ?_⟩
    · -- a node below two children is below one child
      subst heq
      obtain ⟨_, d, hd, hdm⟩ := (hmem m).mp hm'
      obtain ⟨key, hkey⟩ := hcs c List.mem_cons_self
      obtain ⟨key', hkey'⟩ := hcs d (List.mem_cons_of_mem c hd)
      exact hc (h.child_unique hkey hkey' ((hfirst.2 m).mp hm).2 hdm ▸ hd)
    · rw [List.mem_append, hfirst.2, hmem, ← and_or_left, List.exists_mem_cons_iff]

/-- A node covers itself and what its children cover. -/
theorem covers_node (h : Shape t path) {n : NodeId} {x : RadixNode} (hx : t.nodes n = some x)
    {below : List (List NodeId)} (hbelow : List.Forall₂ (Covers t path) (t.childList x) below) :
    Covers t path n (n :: below.flatten) := by
  have hnodup : (t.childList x).Nodup := by
    have hpushed := h.pushedChildren_nodup n
    rwa [RadixTree.pushedChildren, hx, List.nodup_reverse] at hpushed
  have hchild (c : NodeId) (hc : c ∈ t.childList x) : ∃ key, t.childAt n key = some c := by
    obtain ⟨key, hkey⟩ := RadixTree.mem_childList.mp hc
    exact ⟨key, RadixTree.childAt_eq_some.mpr ⟨x, hx, hkey⟩⟩
  obtain ⟨hflat, hmem⟩ := h.covers_flatten hnodup hchild hbelow
  refine ⟨List.nodup_cons.mpr ⟨fun hn => ?_, hflat⟩, fun m => ?_⟩
  · obtain ⟨_, c, hc, hcn⟩ := (hmem n).mp hn
    obtain ⟨key, hkey⟩ := hchild c hc
    exact absurd hcn.length_le (not_le.mpr (h.child_lt hkey))
  · rw [List.mem_cons, hmem]
    constructor
    · rintro (rfl | ⟨hm, c, hc, hcm⟩)
      · exact ⟨⟨x, hx⟩, List.prefix_refl _⟩
      · obtain ⟨key, hkey⟩ := hchild c hc
        obtain ⟨y, hy⟩ := h.child_alive hkey
        exact ⟨hm, ((h.child_path hkey hy).symm ▸ List.prefix_append _ _).trans hcm⟩
    · rintro ⟨hm, hnm⟩
      rcases h.eq_or_child_toward ⟨x, hx⟩ hm hnm with rfl | ⟨key, c, hkey, hcm⟩
      · exact Or.inl rfl
      · obtain ⟨y, hy, hlookup⟩ := RadixTree.childAt_eq_some.mp hkey
        cases hx.symm.trans hy
        exact Or.inr ⟨hm, c, RadixTree.mem_childList.mpr ⟨key, hlookup⟩, hcm⟩

/-- The text of a node is a value that shows it with everything below it. -/
theorem nodeToJson_shows (h : Shape t path) (hreads : floats.ReadsNaturals limit)
    (hlimit : t.Below limit) (fuel : ℕ) {n : NodeId} {x : RadixNode} (hx : t.nodes n = some x)
    (hfuel : rank t.nextId (fun m => OrderDual.toDual (path m).length) n < fuel)
    {cumulativeTokens : ℕ} (hdepth : cumulativeTokens + x.tokens.length = (path n).length) :
    ∃ v shown, Value floats (2 * fuel) (t.nodeToJson fuel n cumulativeTokens) v ∧
      Shows floats t n v shown ∧
      Covers t path n shown := by
  induction fuel generalizing n x cumulativeTokens with
  | zero => exact absurd hfuel (Nat.not_lt_zero _)
  | succ fuel ih =>
    have hchildren : ∀ c ∈ t.childList x, ∃ entry : JsonValue D × List NodeId,
        Value floats (2 * fuel) (t.nodeToJson fuel c (path n).length) entry.1 ∧
        Shows floats t c entry.1 entry.2 ∧
          Covers t path c entry.2 := by
      intro c hc
      obtain ⟨key, hkey⟩ := RadixTree.mem_childList.mp hc
      have hchild : t.childAt n key = some c := RadixTree.childAt_eq_some.mpr ⟨x, hx, hkey⟩
      obtain ⟨y, hy⟩ := h.child_alive hchild
      have hrank : rank t.nextId (fun m => OrderDual.toDual (path m).length) c <
          rank t.nextId (fun m => OrderDual.toDual (path m).length) n :=
            rank_lt_rank (h.fresh hy) (h.child_lt hchild)
      obtain ⟨v, shown, hshows⟩ :=
        ih hy (by omega) (by rw [h.child_path hchild hy, List.length_append])
      exact ⟨(v, shown), hshows⟩
    obtain ⟨below, hbelow⟩ := exists_partners hchildren
    have hbounds := hlimit.node n x hx
    rw [h.pathTokens_eq ⟨x, hx⟩] at hbounds
    obtain ⟨tokens, htokens, hvTokens⟩ := value_natText hreads hbounds.2.1 (2 * fuel + 1)
    obtain ⟨depth, hdepths, hvDepth⟩ := value_natText hreads hbounds.1 (2 * fuel + 1)
    obtain ⟨refs, hrefs, hvRefs⟩ := value_natText hreads hbounds.2.2.1 (2 * fuel + 1)
    obtain ⟨len, hlen, hvLen⟩ := value_natText hreads hbounds.2.2.2.1 (2 * fuel + 1)
    obtain ⟨tick, htick, hvTick⟩ := value_natText hreads hbounds.2.2.2.2 (2 * fuel + 1)
    obtain ⟨ids, hids, hvIds⟩ :=
      value_natTexts hreads (fun i hi => hlimit.ids n x hx i (List.mem_append_left _ hi)) (2 * fuel)
    obtain ⟨ready, hready, hvReady⟩ := value_natTexts hreads
      (fun i hi => hlimit.ids n x hx i (List.mem_append_right _ hi)) (2 * fuel)
    have hvChildren : Value floats (2 * fuel + 1) _ (.array (below.map Prod.fst)) :=
      value_partners (hbelow.imp fun _ _ hentry => hentry.1)
    obtain ⟨entries, hentries, hvalue⟩ := value_object
      [(ascii "token_count", _, _), (ascii "cumulative_tokens", _, _), (ascii "ref_count", _, _),
        (ascii "canonical_len", _, _), (ascii "last_access_tick", _, _), (ascii "seq_ids", _, _),
        (ascii "ready_seq_ids", _, _), (ascii "children", _, _)]
      (List.cons_ne_nil _ _)
      (by
        simp only [List.forall_mem_cons, List.not_mem_nil, false_imp_iff, implies_true, and_true]
        decide)
      (by
        simp only [List.forall_mem_cons, List.not_mem_nil, false_imp_iff, implies_true, and_true]
        exact ⟨hvTokens, hvDepth, hvRefs, hvLen, hvTick, hvIds, hvReady, hvChildren⟩)
    have hfield (key : Bytes) {v : JsonValue D} (hkey : lookup key entries = some v) :
        (JsonValue.object entries).field key = v := by
      rw [JsonValue.field, hkey, Option.getD_some]
    refine ⟨.object entries, n :: (below.map Prod.snd).flatten, ?_, ?_, ?_⟩
    · simp only [List.map_cons, List.map_nil, separated, memberText, List.append_assoc,
        List.cons_append, List.nil_append]
        at hvalue
      simp only [RadixTree.nodeToJson, hx, hdepth]
      exact hvalue
    · refine .node below hx ⟨tokens, htokens, hfield _ (hentries _)⟩
        ⟨depth, ?_, hfield _ (hentries _)⟩ ⟨refs, hrefs, hfield _ (hentries _)⟩
        ⟨len, hlen, hfield _ (hentries _)⟩ ⟨tick, htick, hfield _ (hentries _)⟩
          ⟨ids, hids, hfield _ (hentries _)⟩
        ⟨ready, hready, hfield _ (hentries _)⟩ (hfield _ (hentries _))
          (hbelow.imp fun _ _ hentry => hentry.2.1)
      rw [h.pathTokens_eq ⟨x, hx⟩]
      exact hdepths
    · refine h.covers_node hx
        (List.forall₂_map_right_iff.mpr (hbelow.imp fun _ _ hentry => hentry.2.2))

/-- The text of a tree is a document that shows the root with everything below it. -/
theorem toJson_shows (h : Shape t path) (hreads : floats.ReadsNaturals limit)
    (hlimit : t.Below limit) :
    ∃ v root shown, Document floats (2 * t.nextId + 3) t.toJson v ∧
      NumberAt floats v "tick" t.tick ∧
      NumberAt floats v "active_sequences" t.activeSequenceCount ∧ v.field (ascii "root") = root ∧
      Shows floats t rootId root shown ∧ shown.Nodup ∧ ∀ n, n ∈ shown ↔ t.Alive n := by
  obtain ⟨r, hr, htokens, _⟩ := h.root
  obtain ⟨root, shown, hroot, hshows, hnodup, hmem⟩ :=
    h.nodeToJson_shows hreads hlimit (t.nextId + 1) hr
    (Nat.lt_succ_of_le (rank_le _ _ _)) (by rw [htokens, h.rootPath]; rfl)
  obtain ⟨tick, htick, hvTick⟩ := value_natText hreads hlimit.tick (2 * (t.nextId + 1))
  obtain ⟨active, hactive, hvActive⟩ := value_natText hreads hlimit.active (2 * (t.nextId + 1))
  obtain ⟨entries, hentries, hvalue⟩ := value_object
    [(ascii "tick", _, _), (ascii "active_sequences", _, _), (ascii "root", _, _)]
      (List.cons_ne_nil _ _)
    (by
      simp only [List.forall_mem_cons, List.not_mem_nil, false_imp_iff, implies_true, and_true]
      decide)
    (List.forall_mem_cons.mpr
      ⟨hvTick, List.forall_mem_cons.mpr ⟨hvActive, List.forall_mem_singleton.mpr hroot⟩⟩)
  have hfield (key : Bytes) {v : JsonValue D} (hkey : lookup key entries = some v) :
      (JsonValue.object entries).field key = v := by
    rw [JsonValue.field, hkey, Option.getD_some]
  simp only [List.map_cons, List.map_nil, separated, memberText, List.append_assoc,
    List.cons_append] at hvalue
  have hdocument : Document floats (2 * t.nextId + 3) t.toJson (.object entries) :=
    ⟨compactItem _ _, ⟨isWs_nil, isWs_nil⟩, rfl, hvalue, (List.append_nil _).symm⟩
  refine ⟨.object entries, root, shown, hdocument, ⟨tick, htick, hfield _ (hentries _)⟩,
    ⟨active, hactive, hfield _ (hentries _)⟩, hfield _ (hentries _), hshows, hnodup, fun n => ?_⟩
  rw [hmem, h.rootPath]
  exact and_iff_left List.nil_prefix

/-- The sequences are counted at the nodes that are shown. -/
theorem activeSequenceCount_eq (h : Shape t path) {shown : List NodeId} (hnodup : shown.Nodup)
    (hmem : ∀ n, n ∈ shown ↔ t.Alive n) :
    t.activeSequenceCount = (shown.map fun n => (t.data n).seqIds.toList.length).sum := by
  have hperm : t.allNodes.Perm shown :=
    (List.perm_ext_iff_of_nodup h.allNodes_spec.1 hnodup).mpr fun n =>
    (h.allNodes_spec.2 n).trans (hmem n).symm
  have hsize (n : NodeId) :
      t.field n (fun x => x.seqIds.size) 0 = (t.data n).seqIds.toList.length := by
    cases hn : t.nodes n with
    | none => rw [RadixTree.field, hn, RadixTree.data_of_none hn]; rfl
    | some x => rw [RadixTree.field_of_nodes hn, RadixTree.data_of_nodes hn]; rfl
  have hsum (ns : List NodeId) (k : ℕ) :
      ns.foldl (fun count n => count + t.field n (fun x => x.seqIds.size) 0) k =
      k + (ns.map fun n => (t.data n).seqIds.toList.length).sum := by
    induction ns generalizing k with
    | nil => rfl
    | cons n ns ih => rw [List.foldl_cons, ih, hsize, List.map_cons, List.sum_cons, Nat.add_assoc]
  rw [RadixTree.activeSequenceCount, hsum, Nat.zero_add, (hperm.map _).sum_eq]

end Shape

/-- In every state of every run, and for every iteration order of the maps, the dump of the tree is
a document. It shows each node exactly once, below its parent, with its own counts, the length of
its path and its sequences in order, and counts the sequences that it shows. `json::parse` reads it
back exactly if nothing stands deeper than its limit. -/
theorem tree_dump_faithful (config : Config) (order : ChildOrder) (calls : List Call) (s : Session)
    (hrun : (Session.init config order).Run calls s) (floats : Floats D) (limit : ℕ)
    (hreads : floats.ReadsNaturals limit) (hlimit : s.mapper.tree.Below limit) :
    ∃ v shown, (∃ n, Document floats n s.mapper.tree.toJson v) ∧
      (parse floats s.mapper.tree.toJson = .returned v ↔
        FilledWithin maxDepth s.mapper.tree.toJson) ∧
      NumberAt floats v "tick" s.mapper.tree.tick ∧
      Shows floats s.mapper.tree rootId (v.field (ascii "root")) shown ∧
      shown.Nodup ∧ (∀ n, n ∈ shown ↔ s.mapper.tree.Alive n) ∧
      NumberAt floats v "active_sequences"
        (shown.map fun n => (s.mapper.tree.data n).seqIds.toList.length).sum := by
  obtain ⟨path, idle, h⟩ := Session.run_sound hrun
  have hshape : Shape s.mapper.tree path := h.placement.shape
  obtain ⟨v, root, shown, hdocument, htick, hactive, rfl, hshows, hnodup, hmem⟩ :=
    hshape.toJson_shows hreads hlimit
  refine ⟨v, shown, ⟨_, hdocument⟩, ?_, htick, hshows, hnodup, hmem, ?_⟩
  · rw [parse_returned_iff]
    exact and_iff_right ⟨_, hdocument⟩
  · rwa [hshape.activeSequenceCount_eq hnodup hmem] at hactive

/-- A node with two children. -/
theorem tree_dump_faithful_split : ∃ s shown,
    (Session.init ⟨3, 64, true⟩ .stored).Run
      [.prepare [1, 2], .decode 1 1 0, .decode 1 2 1, .markReady 1 1, .prepare [1, 3]] s ∧
      (∃ v, parse sixDecimals s.mapper.tree.toJson = .returned v ∧
        Shows sixDecimals s.mapper.tree rootId (v.field (ascii "root")) shown) ∧
      shown.Nodup ∧ ∀ n, n ∈ shown ↔ n < 4 := by
  have hrun : (run Session.step (Session.init ⟨3, 64, true⟩ .stored) [.prepare [1, 2],
      .decode 1 1 0, .decode 1 2 1, .markReady 1 1, .prepare [1, 3]]).any (fun s =>
        (s.mapper.tree.tick < 100 ∧ s.mapper.tree.activeSequenceCount < 100 ∧
          s.mapper.tree.nextId = 4) ∧
        (∀ n < 4, (s.mapper.tree.nodes n).isSome ∧ ∀ x ∈ s.mapper.tree.nodes n,
          ((s.mapper.tree.pathTokens n).length < 100 ∧ x.tokens.length < 100 ∧ x.refCount < 100 ∧
            x.canonicalLen < 100 ∧
            x.lastAccessTick < 100) ∧ ∀ i ∈ x.seqIds.toList ++ x.readySeqIds.toList, i < 100) ∧
        (parse sixDecimals s.mapper.tree.toJson).andThen (fun _ => .returned ()) = .returned ()) =
          true := by decide +kernel
  obtain ⟨s, hs, hcond⟩ := (Option.any_eq_true _ _).mp hrun
  obtain ⟨⟨htick, hactive, hnext⟩, hnodes, hparse⟩ := of_decide_eq_true hcond
  obtain ⟨path, idle, h⟩ := Session.run_sound hs
  have hfresh (n : NodeId) (x : RadixNode) (hx : s.mapper.tree.nodes n = some x) :
      n < 4 := hnext ▸ h.placement.shape.fresh hx
  have hlimit : s.mapper.tree.Below 100 :=
    ⟨htick, hactive, fun n x hx => ((hnodes n (hfresh n x hx)).2 x hx).1,
    fun n x hx => ((hnodes n (hfresh n x hx)).2 x hx).2⟩
  have hreads : sixDecimals.ReadsNaturals 100 := fun n _ => ⟨_, stod_natText (.inl rfl) n, rfl⟩
  obtain ⟨v, shown, _, hreturned, _, hshows, hnodup, hmem, _⟩ :=
    tree_dump_faithful _ _ _ s hs sixDecimals 100 hreads hlimit
  obtain ⟨w, hw, _⟩ := Outcome.andThen_eq_returned.mp hparse
  refine ⟨s, shown, hs, ⟨v, hreturned.mpr (parse_returned_iff.mp hw).2, hshows⟩, hnodup,
    fun n => (hmem n).trans ⟨?_, fun hn => ?_⟩⟩
  · rintro ⟨x, hx⟩
    exact hfresh n x hx
  · exact Option.isSome_iff_exists.mp (hnodes n hn).1

end RadixForge
