import BuildPal.Manager.NodeDetector
/-!
# Nodes that do not answer

`NodeDetector` asks for the nodes round after round. Its documentation says that
a node which misses more than `allowed_missed_replies` replies is removed, and
is given its `NodeInfo` again if it returns. We say in which runs of rounds that
is so.
-/
open BuildPal.Lib

namespace BuildPal.Scheduler.NodeDetector

/-! ## The detector with its `NodeInfo`s -/

/-- What `_parse_response` makes of a beacon's answer. -/
structure NodeDict where
  address : String
  port : Nat
  hostname : String
  jobSlots : Nat
deriving DecidableEq

def NodeDict.nodeId (node : NodeDict) : String := node.hostname ++ ":" ++ toString node.port

/-- `created` are the `NodeInfo` objects, of which a `NodeId` is the number; `returned`: the last call has. -/
structure Detector where
  created : List NodeDict := []
  allNodeInfos : List (String × NodeId) := []
  currentWorkingSet : WorkingSet := []
  returned : Bool := true

namespace Detector

/-- The keys of `current_working_set`, which a call returns. -/
def nodes (d : Detector) : List NodeId := d.currentWorkingSet.map (·.1)

/-- `node_info.node_id()`. -/
def nodeId (d : Detector) (info : NodeId) : Option String := d.created[info]?.map NodeDict.nodeId

def getNodeInfo (d : Detector) (node : NodeDict) : Detector × NodeId :=
  match d.allNodeInfos.lookup node.nodeId with
  | some info => (d, info)
  | none =>
    ({ d with created := d.created ++ [node]
              allNodeInfos := d.allNodeInfos ++ [(node.nodeId, d.created.length)] }, d.created.length)

/-- `[get_node_info(node) for node in get_nodes_from_beacons()]`. -/
def getNodeInfos : Detector → List NodeDict → Detector × List NodeId
  | d, [] => (d, [])
  | d, node :: nodes =>
    let r := d.getNodeInfo node
    let t := getNodeInfos r.1 nodes
    (t.1, r.2 :: t.2)

/-- `NodeDetector.__call__`; `keys` are the keys of the dictionary in its order. -/
def call (d : Detector) (keys : List NodeId) (beacons : List NodeDict) : Detector :=
  let r := d.getNodeInfos beacons
  let set := NodeDetector.call r.1.currentWorkingSet keys r.2
  { r.1 with currentWorkingSet := set.1, returned := set.2 }

end Detector

/-- The beacons that answer a call, and the order in which the dictionary lists its keys. -/
structure Round where
  beacons : List NodeDict
  keys : List NodeId

def Round.replies (r : Round) : List String := r.beacons.map NodeDict.nodeId

def step (d : Detector) (r : Round) : Option Detector :=
  if r.keys.Perm d.nodes then some (d.call r.keys r.beacons) else none

/-! ## The rule -/

/-- The answers of each round so far, the last round first. -/
def history (rounds : List Round) : List (List String) := (rounds.map Round.replies).reverse

/-- How many rounds in a row a node has missed. -/
def missed (id : String) : List (List String) → Nat
  | [] => 0
  | replies :: earlier => if id ∈ replies then 0 else missed id earlier + 1

def HasReplied (id : String) (history : List (List String)) : Prop := ∃ replies ∈ history, id ∈ replies

/-- A call returns the nodes that have not missed more than they may, each with the `NodeInfo` it had. -/
structure FollowsRule (history : List (List String)) (d d' : Detector) : Prop where
  returned : d'.returned = true
  nodes : ∀ id, (∃ info ∈ d'.nodes, d'.nodeId info = some id) ↔
    HasReplied id history ∧ missed id history ≤ allowedMissedReplies
  once : d'.nodes.Nodup
  known : ∀ info ∈ d'.nodes, ∀ id, d'.nodeId info = some id → d'.allNodeInfos.lookup id = some info
  same : ∀ id info, d.allNodeInfos.lookup id = some info → d'.allNodeInfos.lookup id = some info

/-- No node that has replied has missed more than it may. -/
def Calm (history : List (List String)) : Prop :=
  ∀ id, HasReplied id history → missed id history ≤ allowedMissedReplies

theorem history_concat (rounds : List Round) (r : Round) :
    history (rounds ++ [r]) = r.replies :: history rounds := by
  simp [history]

theorem hasReplied_cons {id : String} {replies : List String} {earlier : List (List String)} :
    HasReplied id (replies :: earlier) ↔ id ∈ replies ∨ HasReplied id earlier := by
  simp [HasReplied]

/-! ## What a call does to the working set -/

section Counts
variable {ws : WorkingSet} {keys replies : List NodeId} {n : NodeId} {c : Nat}

theorem mem_setReplied {node : NodeId} :
    (n, c) ∈ setReplied ws node ↔ (n = node ∧ c = 0) ∨ (n ≠ node ∧ (n, c) ∈ ws) := by
  unfold setReplied
  split
  · next hmem =>
    simp only [List.mem_map]
    constructor
    · rintro ⟨⟨n', c'⟩, hp, heq⟩
      split at heq
      · cases heq
        exact .inl ⟨rfl, rfl⟩
      · next hne =>
        cases heq
        exact .inr ⟨hne, hp⟩
    · rintro (⟨rfl, rfl⟩ | ⟨hne, hp⟩)
      · obtain ⟨p, hp, heq⟩ := List.mem_map.1 hmem
        exact ⟨p, hp, if_pos heq⟩
      · exact ⟨_, hp, if_neg hne⟩
  · next hmem =>
    simp only [List.mem_append, List.mem_singleton, Prod.mk.injEq]
    constructor
    · rintro (hp | heq)
      · refine .inr ⟨fun heq => hmem (heq ▸ List.mem_map_of_mem hp), hp⟩
      · exact .inl heq
    · rintro (heq | ⟨-, hp⟩)
      · exact .inr heq
      · exact .inl hp

theorem setReplied_nodup {node : NodeId} (h : (ws.map (·.1)).Nodup) : ((setReplied ws node).map (·.1)).Nodup := by
  unfold setReplied
  split
  · have hkeys : (ws.map fun p => if p.1 = node then (node, 0) else p).map (·.1) = ws.map (·.1) := by
      rw [List.map_map]
      refine List.map_congr_left fun p _ => ?_
      by_cases heq : p.1 = node
      · simp [heq]
      · simp [heq]
    rw [hkeys]
    exact h
  · next hmem =>
    rw [List.map_append, List.map_singleton]
    exact List.nodup_append.2 ⟨h, by simp, fun a ha b hb heq => hmem (by
      obtain rfl := List.mem_singleton.1 hb
      exact heq ▸ ha)⟩

theorem mem_replied : (n, c) ∈ replies.foldl setReplied ws ↔ (n ∈ replies ∧ c = 0) ∨ (n ∉ replies ∧ (n, c) ∈ ws) := by
  induction replies generalizing ws with
  | nil => simp
  | cons node replies ih =>
    rw [List.foldl_cons, ih, mem_setReplied, List.mem_cons]
    by_cases hnode : n = node
    · subst hnode
      by_cases hmem : n ∈ replies <;> simp [hmem]
    · by_cases hmem : n ∈ replies <;> simp [hnode, hmem]

theorem replied_nodup (h : (ws.map (·.1)).Nodup) : ((replies.foldl setReplied ws).map (·.1)).Nodup := by
  induction replies generalizing ws with
  | nil => exact h
  | cons node replies ih => exact ih (setReplied_nodup h)

/-- As long as no count is above the limit, nothing is taken out. -/
theorem call_calm (hkeys : keys.Perm (ws.map (·.1))) (hcalm : ∀ p ∈ ws, p.2 ≤ allowedMissedReplies) :
    NodeDetector.call ws keys replies = (replies.foldl setReplied (noteMissed ws replies), true) := by
  have hstay : nodesDisappeared ws keys replies = [] := by
    refine List.filter_eq_nil_iff.2 fun node _ h => ?_
    obtain ⟨-, h⟩ : _ ∧ ws.any (fun p => p.1 = node ∧ allowedMissedReplies < p.2) = true := by simpa using h
    obtain ⟨p, hp, hover⟩ := List.any_eq_true.1 h
    have := hcalm p hp
    have : allowedMissedReplies < p.2 := by simpa using (of_decide_eq_true hover).2
    omega
  unfold NodeDetector.call
  split
  · next hlast =>
    obtain rfl := List.getLast?_eq_none_iff.1 hlast
    obtain rfl := List.map_eq_nil_iff.1 (List.nil_perm.1 hkeys)
    rfl
  · rw [hstay]
    rfl

theorem noteMissed_keys : (noteMissed ws replies).map (·.1) = ws.map (·.1) := by
  rw [noteMissed, List.map_map]
  refine List.map_congr_left fun p _ => ?_
  simp only [Function.comp_apply]
  split <;> rfl

theorem mem_noteMissed (hcalm : ∀ p ∈ ws, p.2 ≤ allowedMissedReplies) (hn : n ∉ replies) :
    (n, c) ∈ noteMissed ws replies ↔ ∃ c', (n, c') ∈ ws ∧ c = c' + 1 := by
  simp only [noteMissed, List.mem_map]
  constructor
  · rintro ⟨p, hp, heq⟩
    by_cases hreplied : p.1 ∈ replies
    · rw [if_neg (fun h => h.1 hreplied)] at heq
      subst heq
      exact absurd hreplied hn
    · rw [if_pos ⟨hreplied, hcalm p hp⟩] at heq
      cases heq
      exact ⟨p.2, hp, rfl⟩
  · rintro ⟨c', hp, rfl⟩
    exact ⟨(n, c'), hp, if_pos ⟨hn, hcalm _ hp⟩⟩

end Counts

/-! ## The `NodeInfo`s -/

/-- What looking up nodes leaves behind: a `NodeInfo` for each of them, and those there were as before. -/
structure Extends (d d' : Detector) : Prop where
  currentWorkingSet : d'.currentWorkingSet = d.currentWorkingSet
  same : ∀ id info, d.allNodeInfos.lookup id = some info → d'.allNodeInfos.lookup id = some info
  ids : (∀ id info, d.allNodeInfos.lookup id = some info → d.nodeId info = some id) →
    ∀ id info, d'.allNodeInfos.lookup id = some info → d'.nodeId info = some id

theorem Extends.refl (d : Detector) : Extends d d := ⟨rfl, fun _ _ h => h, fun h => h⟩

theorem Extends.trans {d d₁ d' : Detector} (h : Extends d d₁) (h' : Extends d₁ d') : Extends d d' where
  currentWorkingSet := h'.currentWorkingSet.trans h.currentWorkingSet
  same id info hlook := h'.same id info (h.same id info hlook)
  ids hids := h'.ids (h.ids hids)

theorem lookup_append {l : List (String × NodeId)} {id id' : String} {info info' : NodeId} :
    (l ++ [(id', info')]).lookup id = some info ↔
      l.lookup id = some info ∨ l.lookup id = none ∧ id = id' ∧ info = info' := by
  rw [List.lookup_append]
  cases hlook : l.lookup id with
  | some info₀ => simp
  | none =>
    by_cases h : id = id'
    · subst h
      simp [eq_comm]
    · have hbeq : (id == id') = false := by simpa using h
      simp [List.lookup_cons, hbeq, h]

theorem getNodeInfo_extends (d : Detector) (node : NodeDict) :
    Extends d (d.getNodeInfo node).1 ∧
      (d.getNodeInfo node).1.allNodeInfos.lookup node.nodeId = some (d.getNodeInfo node).2 ∧
      ∀ id, ((d.getNodeInfo node).1.allNodeInfos.lookup id).isSome ↔
        (d.allNodeInfos.lookup id).isSome ∨ id = node.nodeId := by
  unfold Detector.getNodeInfo
  split
  · next info hlook =>
    refine ⟨.refl d, hlook, fun id => ⟨.inl, ?_⟩⟩
    rintro (h | rfl)
    · exact h
    · exact Option.isSome_iff_exists.2 ⟨info, hlook⟩
  · next hlook =>
    refine ⟨⟨rfl, fun id info h => lookup_append.2 (.inl h), fun hids id info h => ?_⟩,
      lookup_append.2 (.inr ⟨hlook, rfl, rfl⟩), fun id => ?_⟩
    · rcases lookup_append.1 h with hold | ⟨-, rfl, rfl⟩
      · obtain ⟨node', hnode', hid⟩ := Option.map_eq_some_iff.1 (hids id info hold)
        have hlt := (List.getElem?_eq_some_iff.1 hnode').1
        exact Option.map_eq_some_iff.2 ⟨node', by rw [List.getElem?_append_left hlt]; exact hnode', hid⟩
      · simp [Detector.nodeId]
    · simp only [Option.isSome_iff_exists, lookup_append]
      constructor
      · rintro ⟨info, hold | ⟨-, rfl, -⟩⟩
        · exact .inl ⟨info, hold⟩
        · exact .inr rfl
      · rintro (⟨info, hold⟩ | rfl)
        · exact ⟨info, .inl hold⟩
        · exact ⟨_, .inr ⟨hlook, rfl, rfl⟩⟩

theorem getNodeInfos_extends (d : Detector) (nodes : List NodeDict) :
    Extends d (d.getNodeInfos nodes).1 ∧
      (∀ info, info ∈ (d.getNodeInfos nodes).2 ↔
        ∃ id ∈ nodes.map NodeDict.nodeId, (d.getNodeInfos nodes).1.allNodeInfos.lookup id = some info) ∧
      ∀ id, ((d.getNodeInfos nodes).1.allNodeInfos.lookup id).isSome ↔
        (d.allNodeInfos.lookup id).isSome ∨ id ∈ nodes.map NodeDict.nodeId := by
  induction nodes generalizing d with
  | nil => exact ⟨.refl d, by simp [Detector.getNodeInfos], by simp [Detector.getNodeInfos]⟩
  | cons node nodes ih =>
    obtain ⟨hfirst, hlook, hknown⟩ := getNodeInfo_extends d node
    obtain ⟨hrest, hinfos, hknown'⟩ := ih (d.getNodeInfo node).1
    have hlook' := hrest.same _ _ hlook
    refine ⟨hfirst.trans hrest, fun info => ?_, fun id => ?_⟩
    · simp only [Detector.getNodeInfos, List.mem_cons, List.map_cons, hinfos]
      constructor
      · rintro (rfl | ⟨id, hid, h⟩)
        · exact ⟨_, .inl rfl, hlook'⟩
        · exact ⟨id, .inr hid, h⟩
      · rintro ⟨id, rfl | hid, h⟩
        · exact .inl (Option.some.inj (h.symm.trans hlook'))
        · exact .inr ⟨id, hid, h⟩
    · simp only [Detector.getNodeInfos, List.map_cons, List.mem_cons, hknown', hknown, or_assoc]

/-! ## The counts follow the history -/

/-- Every node that has replied is in the working set, with the number of replies it has missed since. -/
structure Tracks (history : List (List String)) (d : Detector) : Prop where
  known : ∀ id, (d.allNodeInfos.lookup id).isSome ↔ HasReplied id history
  ids : ∀ id info, d.allNodeInfos.lookup id = some info → d.nodeId info = some id
  counts : ∀ info c, (info, c) ∈ d.currentWorkingSet ↔
    ∃ id, d.allNodeInfos.lookup id = some info ∧ c = missed id history
  once : d.nodes.Nodup

theorem tracks_new : Tracks [] {} where
  known id := by simp [HasReplied]
  ids id info h := by cases h
  counts info c := by simp
  once := List.nodup_nil

section Step
variable {h : List (List String)} {d d' : Detector} {r : Round}

/-- A round in which no count was above the limit before. -/
theorem step_tracks (hd : Tracks h d) (hcalm : Calm h) (hs : step d r = some d') :
    Tracks (r.replies :: h) d' ∧ d'.returned = true ∧
      ∀ id info, d.allNodeInfos.lookup id = some info → d'.allNodeInfos.lookup id = some info := by
  unfold step at hs
  split at hs
  · next hkeys =>
    cases hs
    obtain ⟨hext, hinfos, hknown⟩ := getNodeInfos_extends d r.beacons
    unfold Detector.call
    generalize d.getNodeInfos r.beacons = g at hext hinfos hknown
    obtain ⟨d₁, infos⟩ := g
    dsimp only at hext hinfos hknown ⊢
    have hids := hext.ids hd.ids
    have hlimit : ∀ p ∈ d.currentWorkingSet, p.2 ≤ allowedMissedReplies := by
      intro p hp
      obtain ⟨id, hlook, hc⟩ := (hd.counts p.1 p.2).1 hp
      rw [hc]
      exact hcalm id ((hd.known id).1 (Option.isSome_iff_exists.2 ⟨_, hlook⟩))
    rw [hext.currentWorkingSet, call_calm hkeys hlimit]
    refine ⟨⟨fun id => ?_, hids, fun info c => ?_, ?_⟩, rfl, hext.same⟩
    · dsimp only
      rw [hknown, hasReplied_cons, hd.known, or_comm]
      rfl
    · dsimp only
      rw [mem_replied]
      by_cases hinfo : info ∈ infos
      · obtain ⟨id, hid, hlook⟩ := (hinfos info).1 hinfo
        have hzero : missed id (r.replies :: h) = 0 := if_pos hid
        constructor
        · rintro (⟨-, rfl⟩ | ⟨hout, -⟩)
          · exact ⟨id, hlook, hzero.symm⟩
          · exact absurd hinfo hout
        · rintro ⟨id', hlook', rfl⟩
          obtain rfl : id = id' := Option.some.inj ((hids id info hlook).symm.trans (hids id' info hlook'))
          exact .inl ⟨hinfo, hzero⟩
      · simp only [hinfo, false_and, false_or, not_false_eq_true, true_and, mem_noteMissed hlimit hinfo]
        constructor
        · rintro ⟨c', hp, rfl⟩
          obtain ⟨id, hlook, rfl⟩ := (hd.counts info c').1 hp
          have hlook' := hext.same id info hlook
          have hout : id ∉ r.replies := fun hid => hinfo ((hinfos info).2 ⟨id, hid, hlook'⟩)
          exact ⟨id, hlook', (if_neg hout).symm⟩
        · rintro ⟨id, hlook', rfl⟩
          have hout : id ∉ r.replies := fun hid => hinfo ((hinfos info).2 ⟨id, hid, hlook'⟩)
          -- the node is known from before
          obtain ⟨info', hlook⟩ := Option.isSome_iff_exists.1
            (((hknown id).1 (Option.isSome_iff_exists.2 ⟨_, hlook'⟩)).resolve_right hout)
          obtain rfl : info' = info := Option.some.inj ((hext.same id info' hlook).symm.trans hlook')
          exact ⟨missed id h, (hd.counts info' _).2 ⟨id, hlook, rfl⟩, if_neg hout⟩
    · exact replied_nodup (by rw [noteMissed_keys]; exact hd.once)
  · cases hs

/-- The rule is followed where no node has missed more than it may, and only there. -/
theorem Tracks.followsRule_iff (hd' : Tracks h d') (hreturned : d'.returned = true)
    (hsame : ∀ id info, d.allNodeInfos.lookup id = some info → d'.allNodeInfos.lookup id = some info) :
    FollowsRule h d d' ↔ Calm h := by
  have hmem : ∀ info, info ∈ d'.nodes ↔ ∃ id, d'.allNodeInfos.lookup id = some info := by
    intro info
    constructor
    · intro hin
      obtain ⟨⟨_, c⟩, hp, rfl⟩ := List.mem_map.1 hin
      obtain ⟨id, hlook, -⟩ := (hd'.counts _ c).1 hp
      exact ⟨id, hlook⟩
    · rintro ⟨id, hlook⟩
      exact List.mem_map_of_mem ((hd'.counts info _).2 ⟨id, hlook, rfl⟩)
  have hnode : ∀ id, (∃ info ∈ d'.nodes, d'.nodeId info = some id) ↔ HasReplied id h := by
    intro id
    rw [← hd'.known id]
    constructor
    · rintro ⟨info, hin, hid⟩
      obtain ⟨id', hlook⟩ := (hmem info).1 hin
      obtain rfl : id' = id := Option.some.inj ((hd'.ids id' info hlook).symm.trans hid)
      exact Option.isSome_iff_exists.2 ⟨info, hlook⟩
    · intro hknown
      obtain ⟨info, hlook⟩ := Option.isSome_iff_exists.1 hknown
      exact ⟨info, (hmem info).2 ⟨id, hlook⟩, hd'.ids id info hlook⟩
  constructor
  · intro hrule id hreplied
    exact ((hrule.nodes id).1 ((hnode id).2 hreplied)).2
  · intro hcalm
    refine ⟨hreturned, fun id => ?_, hd'.once, fun info hin id hid => ?_, hsame⟩
    · rw [hnode]
      exact ⟨fun hreplied => ⟨hreplied, hcalm id hreplied⟩, And.left⟩
    · obtain ⟨id', hlook⟩ := (hmem info).1 hin
      obtain rfl : id' = id := Option.some.inj ((hd'.ids id' info hlook).symm.trans hid)
      exact hlook

end Step

/-! ## Main theorem -/

theorem run_tracks (rounds : List Round) : ∀ (d : Detector), run step {} rounds = some d →
    (∀ pre post, rounds = pre ++ post → post ≠ [] → Calm (history pre)) → Tracks (history rounds) d := by
  induction rounds using List.reverseRecOn with
  | nil =>
    intro d hrun _
    cases hrun
    exact tracks_new
  | append_singleton rounds r ih =>
    intro d hrun hcalm
    rw [run_concat] at hrun
    obtain ⟨d₀, hrun₀, hs⟩ := Option.bind_eq_some_iff.1 hrun
    have hd₀ := ih d₀ hrun₀ fun pre post hsplit _ => hcalm pre (post ++ [r]) (by simp [hsplit]) (by simp)
    rw [history_concat]
    exact (step_tracks hd₀ (hcalm rounds [r] rfl (by simp)) hs).1

/-- **The detector follows its rule** in every round of a run if and only if no node that has replied ever misses more
rounds in a row than it may: what then happens is right only because nothing has to be done. -/
theorem detector_follows_rule (rounds : List Round) (d : Detector) (hrun : run step {} rounds = some d) :
    (∀ pre r post d d', rounds = pre ++ r :: post → run step {} pre = some d → step d r = some d' →
        FollowsRule (history (pre ++ [r])) d d') ↔
      ∀ pre post, rounds = pre ++ post → Calm (history pre) := by
  have hparts : ∀ pre post, rounds = pre ++ post → ∃ d₀, run step {} pre = some d₀ ∧ run step d₀ post = some d := by
    intro pre post hsplit
    rw [hsplit, run_append] at hrun
    exact Option.bind_eq_some_iff.1 hrun
  constructor
  · intro hrule
    -- by the length of the run so far: until then no count was above the limit
    have hcalm : ∀ n pre post, rounds = pre ++ post → pre.length ≤ n → Calm (history pre) := by
      intro n
      induction n with
      | zero =>
        intro pre post _ hlen
        obtain rfl := List.length_eq_zero_iff.1 (Nat.le_zero.1 hlen)
        rintro id ⟨replies, hmem, -⟩
        cases hmem
      | succ n ih =>
        intro pre post hsplit hlen
        rcases List.eq_nil_or_concat' pre with rfl | ⟨pre', r, rfl⟩
        · exact ih [] post hsplit (Nat.zero_le _)
        rw [List.length_append, List.length_singleton] at hlen
        have hsplit' : rounds = pre' ++ r :: post := by rw [hsplit, List.append_assoc]; rfl
        obtain ⟨d₀, hrun₀, hpost⟩ := hparts pre' (r :: post) hsplit'
        obtain ⟨d₁, hs, -⟩ := Option.bind_eq_some_iff.1 hpost
        have hd₀ : Tracks (history pre') d₀ := run_tracks pre' d₀ hrun₀ fun q post' hq _ =>
          ih q (post' ++ r :: post) (by rw [hsplit', hq, List.append_assoc])
            (by have := congrArg List.length hq; rw [List.length_append] at this; omega)
        obtain ⟨hd₁, hreturned, hsame⟩ := step_tracks hd₀ (ih pre' (r :: post) hsplit' (by omega)) hs
        have := hrule pre' r post d₀ d₁ hsplit' hrun₀ hs
        rw [history_concat] at this ⊢
        exact (hd₁.followsRule_iff hreturned hsame).1 this
    exact fun pre post hsplit => hcalm pre.length pre post hsplit (Nat.le_refl _)
  · intro hcalm pre r post d₀ d₁ hsplit hrun₀ hs
    have hd₀ : Tracks (history pre) d₀ := run_tracks pre d₀ hrun₀ fun q post' hq _ =>
      hcalm q (post' ++ r :: post) (by rw [hsplit, hq, List.append_assoc])
    obtain ⟨hd₁, hreturned, hsame⟩ := step_tracks hd₀ (hcalm pre (r :: post) hsplit) hs
    have hnow := hcalm (pre ++ [r]) post (by rw [hsplit, List.append_assoc]; rfl)
    rw [history_concat] at hnow ⊢
    exact (hd₁.followsRule_iff hreturned hsame).2 hnow

def nodeA : NodeDict := ⟨"10.0.0.1", 5000, "a", 4⟩
def nodeB : NodeDict := ⟨"10.0.0.2", 5000, "b", 4⟩

/-- One of two nodes misses two rounds and returns. -/
def returningRounds : List Round :=
  [⟨[nodeA, nodeB], []⟩, ⟨[nodeA], [0, 1]⟩, ⟨[nodeA], [0, 1]⟩, ⟨[nodeA, nodeB], [1, 0]⟩]

theorem detector_follows_rule_returns :
    ∃ d d', run step {} [⟨[nodeA, nodeB], []⟩, ⟨[nodeA], [0, 1]⟩, ⟨[nodeA], [0, 1]⟩] = some d ∧
      step d ⟨[nodeA, nodeB], [1, 0]⟩ = some d' ∧ FollowsRule (history returningRounds) d d' := by
  obtain ⟨d', hrun⟩ : ∃ d', run step {} returningRounds = some d' := ⟨_, rfl⟩
  refine ⟨_, _, rfl, rfl, (detector_follows_rule returningRounds d' hrun).2 (fun pre post hsplit id hreplied => ?_)
    [⟨[nodeA, nodeB], []⟩, ⟨[nodeA], [0, 1]⟩, ⟨[nodeA], [0, 1]⟩] ⟨[nodeA, nodeB], [1, 0]⟩ [] _ _ rfl rfl rfl⟩
  have hid : id = nodeA.nodeId ∨ id = nodeB.nodeId := by
    obtain ⟨replies, hmem, hid⟩ := hreplied
    obtain ⟨r, hr, rfl⟩ := List.mem_map.1 (List.mem_reverse.1 hmem)
    have hr' : r ∈ returningRounds := hsplit ▸ List.mem_append_left post hr
    simp only [returningRounds, List.mem_cons, List.not_mem_nil, or_false] at hr'
    rcases hr' with rfl | rfl | rfl | rfl <;> simp_all [Round.replies]
  have hpre : pre = returningRounds.take pre.length := by rw [hsplit, List.take_left]
  have hlen : pre.length ≤ 4 := by
    have := congrArg List.length hsplit
    simp only [returningRounds, List.length_cons, List.length_nil, List.length_append] at this
    omega
  have hfew : ∀ n ≤ 4, missed nodeA.nodeId (history (returningRounds.take n)) ≤ allowedMissedReplies ∧
      missed nodeB.nodeId (history (returningRounds.take n)) ≤ allowedMissedReplies := by decide
  rw [hpre]
  rcases hid with rfl | rfl
  · exact (hfew _ hlen).1
  · exact (hfew _ hlen).2

/-- Two nodes answer once and never again. When they have missed three rounds they are still there; the round after, one
of them is to be taken out twice. -/
theorem expired_together :
    ∃ d₃ d₄ d₅, run step {} [⟨[nodeA, nodeB], []⟩, ⟨[], [0, 1]⟩, ⟨[], [0, 1]⟩] = some d₃ ∧
      step d₃ ⟨[], [0, 1]⟩ = some d₄ ∧
      ¬ FollowsRule (history [⟨[nodeA, nodeB], []⟩, ⟨[], [0, 1]⟩, ⟨[], [0, 1]⟩, ⟨[], [0, 1]⟩]) d₃ d₄ ∧
      step d₄ ⟨[], [0, 1]⟩ = some d₅ ∧ d₅.returned = false := by
  refine ⟨_, _, _, rfl, rfl, fun hrule => ?_, rfl, rfl⟩
  have hfew := ((hrule.nodes nodeA.nodeId).1 ⟨0, by decide, rfl⟩).2
  revert hfew
  decide

end BuildPal.Scheduler.NodeDetector
