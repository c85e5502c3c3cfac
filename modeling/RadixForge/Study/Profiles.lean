import RadixForge.Library.Lists
import RadixForge.Study.Residency
import RadixForge.Study.Loading

/-!
# Profiles of requests

`build_profiles` of `scripts/moe_study/analyze.py`. The profiles of a request are histograms over
earlier requests and over its own prompt: the node profile counts what the earlier requests decoded
whose prompts begin with the longest beginning that the prompt has in common with any of them. The
scores are rational here.
-/

namespace RadixForge.MoeStudy

open Library

variable {L k : ℕ}

section Building

/-- `np.bincount` of each layer. -/
def counts (nExpert : ℕ) (routes : List (Routing L k)) : Profile L := fun layer =>
  (List.range nExpert).map fun e => ((accesses routes layer).count e : ℚ)

/-- `histogram`; an expert beyond the last one makes it throw. -/
def histogram (routes : List (Routing L k)) (nExpert : ℕ) : Option (Profile L) :=
  if ∀ token ∈ routes, ∀ layer place,
    token layer place < nExpert then some (counts nExpert routes) else none

/-- `normalise`. -/
def normalise (h : Profile L) : Profile L := fun layer =>
  (h layer).map fun x => if 0 < (h layer).sum then x / (h layer).sum else 0

/-- `np.zeros`. -/
def zeros (nExpert : ℕ) : Profile L := fun _ => List.replicate nExpert 0

/-- The sum of two arrays. -/
def add (h h' : Profile L) : Profile L := fun layer => List.zipWith (· + ·) (h layer) (h' layer)

/-- `lcp`: the first place where the tokens differ, or the length of the shorter list. -/
def lcp (a b : List ℤ) : ℕ := (a.zip b).findIdx fun p => p.1 ≠ p.2

/-- `prefill`. -/
def Req.prefill (r : Req L k) : List (Routing L k) := r.routes.take r.nPrompt

/-- The tokens of the prompt. -/
def Loaded.prompt (r : Loaded L k) : List ℤ := r.tokens.take r.nPrompt

/-- The profiles of a request. -/
structure RequestProfiles (L : ℕ) where
  cached : ℕ
  global : Profile L
  node : Profile L
  delta : Profile L
  nodeDelta : Profile L
  fullPrefill : Profile L

/-- One round of `build_profiles`, with the earlier requests and their histograms. -/
def profilesOf (nExpert : ℕ) (minLcp : ℤ) (earlier : List (Loaded L k × Profile L))
    (globalH : Profile L) (r : Loaded L k) :
    Option (RequestProfiles L) :=
  let matched := earlier.map fun p => (lcp r.prompt p.1.prompt, p.2)
  let best := (matched.map Prod.fst).foldr max 0
  let cached := if minLcp ≤ best then best else 0
  let nodeH :=
    if cached ≠ 0 then matched.foldl (fun h m => if cached ≤ m.1 then add h m.2 else h)
      (zeros nExpert) else zeros nExpert
  (histogram (r.prefill.drop cached) nExpert).bind fun deltaH =>
    (histogram r.prefill nExpert).map fun fullH =>
      { cached := cached
        global := normalise globalH
        node := normalise nodeH
        delta := normalise deltaH
        nodeDelta := add (normalise nodeH) (normalise deltaH)
        fullPrefill := normalise fullH }

/-- The loop of `build_profiles`. -/
def buildLoop (nExpert : ℕ) (minLcp : ℤ) :
    List (Loaded L k × Profile L) → Profile L → List (Loaded L k × Profile L) →
    Option (List (RequestProfiles L))
  | _, _, [] => some []
  | earlier, globalH, entry :: rest =>
    (profilesOf nExpert minLcp earlier globalH entry.1).bind fun profiles =>
      (buildLoop nExpert minLcp (earlier ++ [entry]) (add globalH entry.2) rest).map (profiles :: ·)

/-- `build_profiles`. It throws without requests. -/
def buildProfiles (reqs : List (Loaded L k)) (nExpert : ℕ) (minLcp : ℤ) :
    Option (List (RequestProfiles L)) :=
  if reqs.isEmpty then none
  else
    (reqs.mapM fun r => histogram r.decode nExpert).bind fun decodeH =>
      buildLoop nExpert minLcp [] (zeros nExpert) (reqs.zip decodeH)

end Building

section Counts

variable {nExpert : ℕ}

/-- A profile of zeros is one of no rows. -/
theorem zeros_eq_counts (nExpert : ℕ) :
    (zeros nExpert : Profile L) = counts nExpert ([] : List (Routing L k)) := by
  funext layer
  simp [zeros, counts, accesses, List.map_const']

/-- Histograms add up. -/
theorem add_counts (routes routes' : List (Routing L k)) :
    add (counts nExpert routes) (counts nExpert routes') = counts nExpert (routes ++ routes') := by
  funext layer
  simp only [add, counts, List.zipWith_map_left, List.zipWith_map_right, List.zipWith_self,
    accesses, List.flatMap_append, List.count_append, Nat.cast_add]

/-- A histogram counts the rows of its routes. -/
theorem histogram_eq {routes : List (Routing L k)} {h : Profile L}
    (hsome : histogram routes nExpert = some h) :
    h = counts nExpert routes := by
  unfold histogram at hsome
  split at hsome
  · exact (Option.some.inj hsome).symm
  · cases hsome

end Counts

section Shared

/-- The prompts have so many tokens in common. -/
def Loaded.Shares (r : Loaded L k) (n : ℕ) (q : Loaded L k) : Prop :=
  n ≤ r.prompt.length ∧ r.prompt.take n <+: q.prompt

instance (r : Loaded L k) (n : ℕ) (q : Loaded L k) : Decidable (r.Shares n q) :=
  inferInstanceAs (Decidable (_ ∧ _))

/-- `lcp` is the number of leading tokens on which the lists agree. -/
theorem lcp_eq (a b : List ℤ) : lcp a b = agreement a b := by
  induction a generalizing b with
  | nil => simp [lcp]
  | cons x a ih =>
    cases b with
    | nil => simp [lcp]
    | cons y b =>
      have hrest := ih b
      unfold lcp at hrest ⊢
      by_cases hxy : x = y
      · simpa [List.findIdx_cons, agreement_cons, hxy] using hrest
      · simp [List.findIdx_cons, agreement_cons, hxy]

/-- What two prompts have in common. -/
theorem le_lcp_iff {r q : Loaded L k} {n : ℕ} : n ≤ lcp r.prompt q.prompt ↔ r.Shares n q := by
  rw [lcp_eq, le_agreement_iff]
  unfold Loaded.Shares
  refine and_congr_right fun hn => ?_
  rw [List.prefix_iff_eq_take, List.length_take, min_eq_left hn]
  constructor
  · exact fun h => h.2
  · intro h
    have hlength := congrArg List.length h
    rw [List.length_take, List.length_take, min_eq_left hn] at hlength
    exact ⟨by omega, h⟩

/-- No value is greater than the maximum. -/
theorem le_foldr_max {values : List ℕ} {n : ℕ} (h : n ∈ values) : n ≤ values.foldr max 0 := by
  induction values with
  | nil => cases h
  | cons m values ih =>
    rcases List.mem_cons.mp h with rfl | h
    · exact le_max_left _ _
    · exact (ih h).trans (le_max_right _ _)

/-- A maximum that is not zero is one of the values. -/
theorem foldr_max_mem {values : List ℕ} (h : 0 < values.foldr max 0) :
    values.foldr max 0 ∈ values := by
  induction values with
  | nil => cases h
  | cons m values ih =>
    rw [List.foldr_cons] at h ⊢
    rcases max_choice m (values.foldr max 0) with hmax | hmax
    · rw [hmax]
      exact List.mem_cons_self
    · rw [hmax] at h ⊢
      exact List.mem_cons_of_mem m (ih h)

end Shared

section Causal

variable {nExpert : ℕ} {minLcp : ℤ}

/-- What the profiles of a request are. -/
structure RequestProfiles.Describes (nExpert : ℕ) (minLcp : ℤ) (earlier : List (Loaded L k))
    (r : Loaded L k) (p : RequestProfiles L) : Prop where
  shared : 0 < p.cached → minLcp ≤ p.cached ∧ ∃ q ∈ earlier, r.Shares p.cached q
  longest : ∀ q ∈ earlier, ∀ n, p.cached < n → r.Shares n q → (n : ℤ) < minLcp
  global : p.global = normalise (counts nExpert (earlier.flatMap fun q => q.decode))
  node : p.node = normalise
    (counts nExpert ((earlier.filter fun q => 0 < p.cached ∧
      r.Shares p.cached q).flatMap fun q => q.decode))
  delta : p.delta = normalise (counts nExpert (r.prefill.drop p.cached))
  nodeDelta : p.nodeDelta = add p.node p.delta
  fullPrefill : p.fullPrefill = normalise (counts nExpert r.prefill)

/-- The histograms of earlier requests that have enough in common. -/
theorem foldl_matched (r : Loaded L k) (cached : ℕ) (earlier : List (Loaded L k × Profile L))
    (hcounts : ∀ p ∈ earlier, p.2 = counts nExpert p.1.decode) (routes : List (Routing L k)) :
    (earlier.map fun p => (lcp r.prompt p.1.prompt, p.2)).foldl
      (fun h m => if cached ≤ m.1 then add h m.2 else h)
        (counts nExpert routes) =
      counts nExpert (routes ++
        ((earlier.map Prod.fst).filter fun q => r.Shares cached q).flatMap fun q => q.decode) := by
  induction earlier generalizing routes with
  | nil => simp
  | cons entry earlier ih =>
    obtain ⟨hentry, hrest⟩ := List.forall_mem_cons.mp hcounts
    rw [List.map_cons, List.foldl_cons, List.map_cons]
    by_cases hshares : r.Shares cached entry.1
    · rw [if_pos (le_lcp_iff.mpr hshares), hentry, add_counts, ih hrest,
        List.filter_cons_of_pos (by simpa using hshares), List.flatMap_cons, List.append_assoc]
    · rw [if_neg fun h => hshares (le_lcp_iff.mp h), ih hrest,
        List.filter_cons_of_neg (by simpa using hshares)]

/-- One round. -/
theorem profilesOf_describes {earlier : List (Loaded L k × Profile L)} {globalH : Profile L}
    {r : Loaded L k} {p : RequestProfiles L}
    (h : profilesOf nExpert minLcp earlier globalH r = some p)
    (hcounts : ∀ q ∈ earlier, q.2 = counts nExpert q.1.decode)
    (hglobal : globalH = counts nExpert ((earlier.map Prod.fst).flatMap fun q => q.decode)) :
    p.Describes nExpert minLcp (earlier.map Prod.fst) r := by
  unfold profilesOf at h
  obtain ⟨deltaH, hdelta, hrest⟩ := Option.bind_eq_some_iff.mp h
  obtain ⟨fullH, hfull, rfl⟩ := Option.map_eq_some_iff.mp hrest
  have hvalues : (earlier.map fun p => (lcp r.prompt p.1.prompt, p.2)).map Prod.fst =
      (earlier.map Prod.fst).map fun q => lcp r.prompt q.prompt := by
    rw [List.map_map, List.map_map]
    rfl
  rw [hvalues] at hdelta ⊢
  generalize hbest : ((earlier.map Prod.fst).map fun q => lcp r.prompt q.prompt).foldr max 0 =
    best at hdelta ⊢
  have hmost (q : Loaded L k) (hq : q ∈ earlier.map Prod.fst) : lcp r.prompt q.prompt ≤ best :=
    hbest ▸ le_foldr_max (List.mem_map_of_mem hq)
  have hsome (hpositive : 0 < best) : ∃ q ∈ earlier.map Prod.fst, r.Shares best q := by
    obtain ⟨q, hq, heq⟩ := List.mem_map.mp (foldr_max_mem (hbest ▸ hpositive))
    exact ⟨q, hq, le_lcp_iff.mp (by omega)⟩
  refine ⟨?_, ?_, by rw [hglobal], ?_, by rw [histogram_eq hdelta], rfl, by rw [histogram_eq hfull]⟩
  · dsimp only
    split
    · exact fun hpositive => ⟨‹_›, hsome hpositive⟩
    · exact fun hpositive => absurd hpositive (lt_irrefl 0)
  · intro q hq n hn hshares
    have hle := (le_lcp_iff.mpr hshares).trans (hmost q hq)
    dsimp only at hn
    split at hn <;> omega
  · dsimp only
    generalize (if minLcp ≤ (best : ℤ) then best else 0) = cached
    by_cases hcached : cached = 0
    · subst hcached
      simp [zeros_eq_counts (k := k)]
    · have hpositive : 0 < cached := Nat.pos_of_ne_zero hcached
      rw [if_pos hcached, zeros_eq_counts (k := k), foldl_matched r cached earlier hcounts,
        List.nil_append]
      simp only [hpositive, true_and]

/-- The loop. -/
theorem buildLoop_describes {earlier rest : List (Loaded L k × Profile L)} {globalH : Profile L}
    {out : List (RequestProfiles L)} (h : buildLoop nExpert minLcp earlier globalH rest = some out)
    (hcounts : ∀ q ∈ earlier ++ rest, q.2 = counts nExpert q.1.decode)
    (hglobal : globalH = counts nExpert ((earlier.map Prod.fst).flatMap fun q => q.decode)) :
    out.length = rest.length ∧ ∀ (i : ℕ) entry, rest[i]? = some entry →
      ∃ p ∈ out[i]?, p.Describes nExpert minLcp
        ((earlier ++ rest.take i).map Prod.fst) entry.1 := by
  induction rest generalizing earlier globalH out with
  | nil =>
    cases h
    exact ⟨rfl, fun i entry hentry => by cases hentry⟩
  | cons first rest ih =>
    obtain ⟨p, hp, hmap⟩ := Option.bind_eq_some_iff.mp h
    obtain ⟨out', hout', rfl⟩ := Option.map_eq_some_iff.mp hmap
    have hfirst := profilesOf_describes hp
      (fun q hq => hcounts q (List.mem_append_left _ hq)) hglobal
    have hglobal' : add globalH first.2 =
        counts nExpert (((earlier ++ [first]).map Prod.fst).flatMap fun q => q.decode) := by
      rw [hglobal, hcounts first (List.mem_append_right _ List.mem_cons_self), add_counts,
        List.map_append, List.flatMap_append]
      simp
    obtain ⟨hlength, hrest⟩ := ih hout' (by rwa [List.append_assoc, List.singleton_append]) hglobal'
    refine ⟨by rw [List.length_cons, List.length_cons, hlength], fun i entry hentry => ?_⟩
    cases i with
    | zero =>
      cases hentry
      exact ⟨p, rfl, by simpa using hfirst⟩
    | succ i =>
      obtain ⟨q, hq, hdescribes⟩ := hrest i entry hentry
      rw [List.append_assoc, List.singleton_append] at hdescribes
      exact ⟨q, hq, hdescribes⟩

end Causal

/-- The profiles of a request say nothing about what it decodes itself or about later requests. They
are the normalised histograms of what all earlier requests decoded, of what those decoded whose
prompts begin with the cached part, of the rest of the prompt, and of the whole prompt. The cached
part is the longest one that is shared with an earlier prompt, or nothing if that is shorter than
the minimum. -/
theorem profiles_causal (reqs : List (Loaded L k)) (nExpert : ℕ) (minLcp : ℤ)
    (out : List (RequestProfiles L)) (h : buildProfiles reqs nExpert minLcp = some out) :
    out.length = reqs.length ∧ ∀ (i : ℕ) r, reqs[i]? = some r →
      ∃ p ∈ out[i]?, p.Describes nExpert minLcp (reqs.take i) r := by
  unfold buildProfiles at h
  split at h
  · cases h
  · obtain ⟨decodeH, hdecode, hloop⟩ := Option.bind_eq_some_iff.mp h
    have hall := mapM_eq_some_iff.mp hdecode
    have hfirst : (reqs.zip decodeH).map Prod.fst = reqs := List.map_fst_zip hall.length_eq.le
    have hcounts : ∀ q ∈ [] ++ reqs.zip decodeH, q.2 = counts nExpert q.1.decode :=
      fun q hq => histogram_eq ((List.forall₂_iff_zip.mp hall).2 hq)
    obtain ⟨hlength, hdescribes⟩ := buildLoop_describes hloop hcounts (zeros_eq_counts nExpert)
    refine ⟨by rw [hlength, ← hfirst, List.length_map, hfirst], fun i r hr => ?_⟩
    rw [← hfirst, List.getElem?_map] at hr
    obtain ⟨entry, hentry, rfl⟩ := Option.map_eq_some_iff.mp hr
    obtain ⟨p, hp, hp'⟩ := hdescribes i entry hentry
    rw [List.nil_append, List.map_take, hfirst] at hp'
    exact ⟨p, hp, hp'⟩

/-- A request of the model that takes one expert a token. -/
def shortRequest (tokens : List ℤ) (experts : List ℕ) : Loaded 1 1 :=
  { id := [], family := [], agent := [], tokens := tokens, nPrompt := 2,
    routes := experts.map fun e _ _ => e }

/-- The second request shares two tokens with the first one, and is not among what its profiles
count. -/
theorem profiles_causal_second : ∃ out,
    buildProfiles [shortRequest [5, 6, 7] [0, 1, 0], shortRequest [5, 6, 8] [1, 1, 1]] 2 1 =
      some out ∧
      ∃ p ∈ out[1]?, p.Describes 2 1 [shortRequest [5, 6, 7] [0, 1, 0]]
        (shortRequest [5, 6, 8] [1, 1, 1]) := by
  have hrun : (buildProfiles [shortRequest [5, 6, 7] [0, 1, 0], shortRequest [5, 6, 8] [1, 1, 1]] 2
      1).isSome = true := by
    decide +kernel
  obtain ⟨out, hout⟩ := Option.isSome_iff_exists.mp hrun
  exact ⟨out, hout, (profiles_causal _ 2 1 out hout).2 1 _ rfl⟩

end RadixForge.MoeStudy
