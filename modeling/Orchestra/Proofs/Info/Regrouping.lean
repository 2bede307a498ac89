import Mathlib.Data.List.Sublists
import Orchestra.Proofs.Info.Coherent

/-!
# Merging metadata in groups

A fan-in that merges what other fan-ins have merged comes to the state that one fan-in over all
their states comes to, as long as the metadata of these are coherent: the first problem, the samples
in order, and metadata in which every group of neighbours may be merged by itself.
-/

namespace Orchestra

namespace Info

/-- The objects in some metadata hold their entries in key order. -/
def Tidy (info : Info) : Prop :=
  info.toJson.Tidy

/-- Wherever paths of keys lead to values in two of some metadata, these are of one kind, and
numbers are integers any of which have a signed 64-bit sum. -/
def Coherent (infos : List Info) : Prop :=
  Json.Coherent (infos.map toJson)

/-- Every path of keys that both metadata have leads to numbers or objects. -/
def Additive (a b : Info) : Prop :=
  a.toJson.Additive b.toJson

variable {a b c : Info} {infos after : List Info}

theorem toJson_injective (h : a.toJson = b.toJson) : a = b := by
  cases a
  cases b
  exact congrArg Info.mk (Json.obj.inj h)

theorem tidy_empty : empty.Tidy := by
  intro path entries h
  cases path with
  | nil => cases h; trivial
  | cons key path => contradiction

theorem Coherent.cons_empty (coherent : Coherent infos) : Coherent (empty :: infos) :=
  Json.Coherent.cons_empty coherent fun v hv => by
    obtain ⟨info, -, rfl⟩ := List.mem_map.mp hv
    rfl

theorem Coherent.tail (coherent : Coherent (a :: infos)) : Coherent infos :=
  Json.Coherent.sublist coherent (List.sublist_cons_self _ _)

theorem Coherent.merge (coherent : Coherent (a :: b :: infos)) (ha : a.Tidy) (hb : b.Tidy) :
    (a.merge b).Tidy ∧ Coherent (a.merge b :: infos) :=
  ⟨Json.Tidy.merge ha hb (Json.Coherent.sameKinds coherent (by simp)),
    Json.Coherent.merge [] coherent ha hb⟩

theorem Coherent.merge_assoc (coherent : Coherent [a, b, c]) (ha : a.Tidy) (hb : b.Tidy)
    (hc : c.Tidy) : (a.merge b).merge c = a.merge (b.merge c) :=
  toJson_injective (Json.Coherent.merge_assoc coherent ha hb hc)

theorem Coherent.merge_comm (coherent : Coherent [a, b]) (additive : Additive a b) (ha : a.Tidy)
    (hb : b.Tidy) : a.merge b = b.merge a :=
  toJson_injective (Json.Coherent.merge_comm coherent additive ha hb)

/-- Merging into no metadata changes nothing. -/
theorem empty_merge (tidy : a.Tidy) : empty.merge a = a := by
  refine congrArg Info.mk ?_
  have hordered : Keyed.Ordered a.entries := tidy [] _ rfl
  have hnone : Keyed.Ordered empty.entries := trivial
  refine (Json.ordered_mergeEntries hnone).ext hordered fun key => ?_
  rw [Json.find?_mergeEntries hnone hordered]
  rfl

/-- Metadata merged one after the other, from the left. -/
def mergeAll (first : Info) (rest : List Info) : Info :=
  rest.foldl Info.merge first

/-- What some of coherent metadata are merged to is coherent with the others. -/
theorem Coherent.mergeAll (coherent : Coherent (a :: infos ++ after)) (ha : a.Tidy)
    (tidy : ∀ info ∈ infos, info.Tidy) :
    (a.mergeAll infos).Tidy ∧ Coherent (a.mergeAll infos :: after) := by
  induction infos generalizing a with
  | nil => exact ⟨ha, coherent⟩
  | cons b infos ih =>
    obtain ⟨hmerge, hcoherent⟩ := coherent.merge ha (tidy b (by simp))
    exact ih hcoherent hmerge fun info h => tidy info (by simp [h])

/-- Coherent metadata may be merged with what others are merged to. -/
theorem Coherent.merge_mergeAll (coherent : Coherent (a :: b :: infos)) (ha : a.Tidy)
    (hb : b.Tidy) (tidy : ∀ info ∈ infos, info.Tidy) :
    a.merge (b.mergeAll infos) = (a.merge b).mergeAll infos := by
  induction infos generalizing b with
  | nil => rfl
  | cons c infos ih =>
    have hc : c.Tidy := tidy c (by simp)
    have hsub : [a, b, c].Sublist (a :: b :: c :: infos) := by simp
    have hthree : Coherent [a, b, c] := Json.Coherent.sublist coherent (hsub.map toJson)
    have hright : Coherent (a :: b.merge c :: infos) :=
      Json.Coherent.merge [a.toJson] coherent hb hc
    have hbc : (b.merge c).Tidy :=
      Json.Tidy.merge hb hc (Json.Coherent.sameKinds coherent (by simp))
    calc a.merge ((b.merge c).mergeAll infos)
      _ = (a.merge (b.merge c)).mergeAll infos :=
        ih hright hbc fun info h => tidy info (by simp [h])
      _ = ((a.merge b).merge c).mergeAll infos := by rw [hthree.merge_assoc ha hb hc]

end Info

/-! ### States merged by fan-ins within fan-ins -/

/-- A way to merge states in their order: a fan-in merges what it gathers before that is merged with
what stands beside it. -/
inductive FanInTree where
  | state (s : State)
  | fanIn (inner : FanInTree)
  | beside (left right : FanInTree)

namespace FanInTree

/-- The states in their order. -/
def leaves : FanInTree → List State
  | state s => [s]
  | fanIn inner => inner.leaves
  | beside left right => left.leaves ++ right.leaves

/-- The states that come out of the tree: a fan-in hands on one state. -/
def outputs : FanInTree → Except RunError (List State)
  | state s => .ok [s]
  | fanIn inner => inner.outputs.bind fun states => (mergeSamples states).map fun merged => [merged]
  | beside left right =>
    left.outputs.bind fun before => right.outputs.map fun after => before ++ after

/-- All states merged to one. -/
def merged (tree : FanInTree) : Except RunError State :=
  tree.outputs.bind mergeSamples

theorem leaves_ne_nil (tree : FanInTree) : tree.leaves ≠ [] := by
  induction tree with
  | state s => exact List.cons_ne_nil s []
  | fanIn inner ih => exact ih
  | beside left right ihl ihr => simp [leaves, ihl]

end FanInTree

/-- States that stand for others in a merge: the same problem comes first, there are the same
samples in the same order, and the metadata come to the same where they are merged into `info`. -/
structure State.StandFor (info : Info) (states states' : List State) : Prop where
  first : states.head?.map State.problem = states'.head?.map State.problem
  samples : states.flatMap (fun s => s.samples.toList) =
    states'.flatMap (fun s => s.samples.toList)
  info : info.mergeAll (states.map State.info) = info.mergeAll (states'.map State.info)
  tidy : ∀ s ∈ states, s.info.Tidy

namespace State

variable {info : Info} {states states' : List State}

/-- The default merge in terms of the first problem, all samples and all metadata. -/
theorem mergeSamples_cons (s : State) (rest : List State) (tidy : s.info.Tidy) :
    mergeSamples (s :: rest) = .ok ⟨s.problem,
      ⟨(s :: rest).flatMap fun s => s.samples.toList⟩,
      Info.empty.mergeAll ((s :: rest).map State.info)⟩ := by
  have hinfo : Info.empty.mergeAll ((s :: rest).map State.info) =
      rest.foldl (fun info s => info.merge s.info) s.info := by
    rw [List.map_cons, Info.mergeAll, List.foldl_cons, Info.empty_merge tidy, List.foldl_map]
  rw [hinfo, mergeSamples, SampleSet.concat, ← List.map_cons (f := State.samples),
    List.flatMap_map]

/-- States that stand for others are merged to the same state. -/
theorem StandFor.mergeSamples_eq (h : StandFor .empty states states')
    (tidy : ∀ s ∈ states', s.info.Tidy) : mergeSamples states = mergeSamples states' := by
  cases states with
  | nil =>
    cases states' with
    | nil => rfl
    | cons s' rest' => exact absurd h.first nofun
  | cons s rest =>
    cases states' with
    | nil => exact absurd h.first nofun
    | cons s' rest' =>
      have hfirst : s.problem = s'.problem := Option.some.inj h.first
      rw [mergeSamples_cons s rest (h.tidy s (by simp)),
        mergeSamples_cons s' rest' (tidy s' (by simp)), hfirst, h.samples, h.info]

theorem StandFor.append {left left' right right' : List State} (hleft : StandFor info left left')
    (hright : StandFor (info.mergeAll (left'.map State.info)) right right') :
    StandFor info (left ++ right) (left' ++ right') where
  first := by
    rw [List.head?_append, List.head?_append, Option.map_or, Option.map_or, hleft.first,
      hright.first]
  samples := by rw [List.flatMap_append, List.flatMap_append, hleft.samples, hright.samples]
  info := by
    have hsplit (before after : List State) : info.mergeAll ((before ++ after).map State.info) =
        (info.mergeAll (before.map State.info)).mergeAll (after.map State.info) := by
      rw [List.map_append, Info.mergeAll, List.foldl_append]
      rfl
    rw [hsplit, hsplit, hleft.info, hright.info]
  tidy s hs := by
    rcases List.mem_append.mp hs with hs | hs
    · exact hleft.tidy s hs
    · exact hright.tidy s hs

/-- What coherent states are merged to stands for them. -/
theorem standFor_merged (hne : states ≠ []) (hinfo : info.Tidy)
    (tidy : ∀ s ∈ states, s.info.Tidy)
    (coherent : Info.Coherent (info :: states.map State.info)) :
    ∃ merged, mergeSamples states = .ok merged ∧ StandFor info [merged] states := by
  cases states with
  | nil => contradiction
  | cons s rest =>
    have hs : s.info.Tidy := tidy s (by simp)
    have hrest : ∀ info ∈ rest.map State.info, info.Tidy := by
      simpa using fun t ht => tidy t (by simp [ht])
    have hall : Info.empty.mergeAll ((s :: rest).map State.info) =
        s.info.mergeAll (rest.map State.info) := by
      rw [List.map_cons, Info.mergeAll, List.foldl_cons, Info.empty_merge hs]
      rfl
    have htail : Info.Coherent (s.info :: rest.map State.info ++ []) := by
      rw [List.append_nil]
      exact coherent.tail
    refine ⟨_, mergeSamples_cons s rest hs, rfl, List.append_nil _, ?_, ?_⟩
    · change info.merge (Info.empty.mergeAll ((s :: rest).map State.info)) = _
      rw [hall, coherent.merge_mergeAll hinfo hs hrest]
      rfl
    · intro t ht
      rw [List.mem_singleton.mp ht]
      change (Info.empty.mergeAll ((s :: rest).map State.info)).Tidy
      rw [hall]
      exact (htail.mergeAll hs hrest).1

end State

namespace FanInTree

/-- What comes out of a tree of coherent states stands for these. -/
theorem standFor (tree : FanInTree) {info : Info} (hinfo : info.Tidy)
    (tidy : ∀ s ∈ tree.leaves, s.info.Tidy)
    (coherent : Info.Coherent (info :: tree.leaves.map State.info)) :
    ∃ states, tree.outputs = .ok states ∧ State.StandFor info states tree.leaves := by
  induction tree generalizing info with
  | state s => exact ⟨[s], rfl, rfl, rfl, rfl, tidy⟩
  | fanIn inner ih =>
    obtain ⟨states, hout, hstates⟩ := ih Info.tidy_empty tidy coherent.tail.cons_empty
    obtain ⟨merged, hmerged, hone⟩ :=
      State.standFor_merged inner.leaves_ne_nil hinfo tidy coherent
    refine ⟨[merged], ?_, hone⟩
    rw [outputs, hout]
    change (mergeSamples states).map _ = _
    rw [hstates.mergeSamples_eq tidy, hmerged]
    rfl
  | beside left right ihl ihr =>
    rw [leaves, List.map_append] at coherent
    have hbefore : ∀ s ∈ left.leaves, s.info.Tidy := fun s hs =>
      tidy s (List.mem_append_left _ hs)
    have hafter : ∀ s ∈ right.leaves, s.info.Tidy := fun s hs =>
      tidy s (List.mem_append_right _ hs)
    have hleft : Info.Coherent (info :: left.leaves.map State.info) :=
      Json.Coherent.sublist coherent (by simp)
    obtain ⟨hmerged, hright⟩ := Info.Coherent.mergeAll coherent hinfo (by simpa using hbefore)
    obtain ⟨before, hout, hstand⟩ := ihl hinfo hbefore hleft
    obtain ⟨after, hout', hstand'⟩ := ihr hmerged hafter hright
    refine ⟨before ++ after, ?_, hstand.append hstand'⟩
    rw [outputs, hout, hout']
    rfl

end FanInTree

/-- Merging coherent metadata is associative, and commutative where only numbers and objects meet.
So fan-ins within fan-ins over the same states in the same order come to the same state, however
these are grouped: the one that the default merge makes of all of them at once. -/
theorem merging_regroups :
    (∀ a b c : Info, a.Tidy → b.Tidy → c.Tidy → Info.Coherent [a, b, c] →
      (a.merge b).merge c = a.merge (b.merge c) ∧ (a.Additive b → a.merge b = b.merge a)) ∧
    ∀ tree : FanInTree, (∀ s ∈ tree.leaves, s.info.Tidy) →
      Info.Coherent (tree.leaves.map State.info) →
      ∃ merged, mergeSamples tree.leaves = .ok merged ∧
        ∀ tree' : FanInTree, tree'.leaves = tree.leaves → tree'.merged = .ok merged := by
  constructor
  · intro a b c ha hb hc coherent
    have hpair : Info.Coherent [a, b] := Json.Coherent.sublist coherent (by simp)
    exact ⟨coherent.merge_assoc ha hb hc, fun additive => hpair.merge_comm additive ha hb⟩
  · intro tree tidy coherent
    obtain ⟨merged, hmerged, -⟩ :=
      State.standFor_merged tree.leaves_ne_nil Info.tidy_empty tidy coherent.cons_empty
    refine ⟨merged, hmerged, fun tree' hleaves => ?_⟩
    rw [← hleaves] at tidy coherent hmerged
    obtain ⟨states, hout, hstates⟩ := tree'.standFor Info.tidy_empty tidy coherent.cons_empty
    rw [FanInTree.merged, hout]
    exact (hstates.mergeSamples_eq tidy).trans hmerged

/-- Metadata with a counter, and one more in an object within. -/
def Info.counting (n : Int) : Info :=
  ⟨[("calls", .num (.int n)), ("inner", .obj [("calls", .num (.int n))])]⟩

/-- A path leads in all of these metadata to objects, in all to the counter, or in none anywhere. -/
theorem Info.at?_counting (path : List String) :
    (∃ entries : Int → List (String × Json), (∀ n, Keyed.Ordered (entries n)) ∧
      ∀ n, (counting n).toJson.at? path = some (.obj (entries n))) ∨
    (∀ n, (counting n).toJson.at? path = some (.num (.int n))) ∨
    ∀ n, (counting n).toJson.at? path = none := by
  have hkeys : "calls" < "inner" := by decide +kernel
  match path with
  | [] =>
    refine .inl ⟨fun n => (counting n).entries, fun n => ⟨?_, nofun, trivial⟩, fun n => rfl⟩
    exact List.forall_mem_singleton.mpr hkeys
  | key :: path =>
    by_cases hcalls : "calls" = key
    · subst hcalls
      cases path with
      | nil => exact .inr (.inl fun n => rfl)
      | cons key path => exact .inr (.inr fun n => rfl)
    by_cases hinner : "inner" = key
    · subst hinner
      match path with
      | [] =>
        exact .inl ⟨fun n => [("calls", .num (.int n))], fun n => ⟨nofun, trivial⟩, fun n => rfl⟩
      | key :: path =>
        by_cases hcalls : "calls" = key
        · subst hcalls
          cases path with
          | nil => exact .inr (.inl fun n => rfl)
          | cons key path => exact .inr (.inr fun n => rfl)
        · refine .inr (.inr fun n => ?_)
          simp [counting, toJson, Json.at?, Json.field?, Keyed.find?, hcalls]
    · refine .inr (.inr fun n => ?_)
      simp [counting, toJson, Json.at?, Json.field?, Keyed.find?, hcalls, hinner]

theorem Info.tidy_counting (n : Int) : (counting n).Tidy := by
  intro path entries h
  rcases at?_counting path with ⟨entries', ordered, hpath⟩ | hpath | hpath
  · rw [hpath n] at h
    cases h
    exact ordered n
  · exact absurd ((hpath n).symm.trans h) nofun
  · exact absurd ((hpath n).symm.trans h) nofun

/-- Counters are coherent where any of their numbers have a signed sum. -/
theorem Info.coherent_counting (ints : List Int)
    (hsums : ∀ part ∈ ints.sublists, fitsSigned (part.foldr (· + ·) 0) = true) :
    Coherent (ints.map counting) := by
  intro path hfound
  have hmap (f : Int → Option Json) (h : ∀ n, (counting n).toJson.at? path = f n) :
      ((ints.map counting).map toJson).filterMap (Json.at? path) = ints.filterMap f := by
    rw [List.map_map, List.filterMap_map]
    exact congrArg (ints.filterMap ·) (funext h)
  rcases at?_counting path with ⟨entries, -, hpath⟩ | hpath | hpath
  · rw [hmap _ hpath]
    refine Json.agree_of_objects fun v hv => ?_
    obtain ⟨n, -, hn⟩ := List.mem_filterMap.mp hv
    cases hn
    rfl
  · have hall : ints.filterMap (fun n => some (Json.num (.int n))) =
        ints.map fun n => Json.num (.int n) := congrFun List.filterMap_eq_map ints
    rw [hmap _ hpath, hall]
    exact Json.agree_of_ints fun part hpart => hsums part (List.mem_sublists.mpr hpart)
  · rw [hmap _ hpath, List.filterMap_eq_nil_iff.mpr fun _ _ => rfl] at hfound
    contradiction

theorem Info.additive_counting (m n : Int) : (counting m).Additive (counting n) := by
  intro path u v hu hv
  rcases at?_counting path with ⟨entries, -, hpath⟩ | hpath | hpath
  · cases (hpath m).symm.trans hu
    cases (hpath n).symm.trans hv
    exact ⟨.inr rfl, .inr rfl⟩
  · cases (hpath m).symm.trans hu
    cases (hpath n).symm.trans hv
    exact ⟨.inl rfl, .inl rfl⟩
  · exact absurd ((hpath m).symm.trans hu) nofun

/-- Three counters may be merged in any grouping and two of them in either order, and where states
carry them a fan-in of the last two within another comes to what one fan-in comes to. -/
theorem merging_regroups_counting :
    let a := Info.counting 1
    let b := Info.counting 2
    let c := Info.counting (-5)
    let state (info : Info) : State := State.empty.withInfo info
    let tree : FanInTree :=
      .beside (.state (state a)) (.fanIn (.beside (.state (state b)) (.state (state c))))
    (a.merge b).merge c = a.merge (b.merge c) ∧ a.merge b = b.merge a ∧
      tree.merged = mergeSamples [state a, state b, state c] := by
  intro a b c state tree
  have hcoherent : Info.Coherent [a, b, c] :=
    Info.coherent_counting [1, 2, -5] (by decide)
  have htidy : ∀ s ∈ [state a, state b, state c], s.info.Tidy := by
    simp only [List.forall_mem_cons]
    exact ⟨Info.tidy_counting 1, Info.tidy_counting 2, Info.tidy_counting (-5), nofun⟩
  obtain ⟨hassoc, hcomm⟩ := merging_regroups.1 a b c (Info.tidy_counting 1) (Info.tidy_counting 2)
    (Info.tidy_counting (-5)) hcoherent
  obtain ⟨merged, hmerged, htrees⟩ := merging_regroups.2 tree htidy hcoherent
  exact ⟨hassoc, hcomm (Info.additive_counting 1 2), (htrees tree rfl).trans hmerged.symm⟩

end Orchestra
