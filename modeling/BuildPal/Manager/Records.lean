import BuildPal.Manager.Bookkeeping
/-!
# The manager's records agree

`sessions`, `tasks_running`, the sets of the tasks and the ledgers of the
commands are kept in different objects and changed at different places. In
every reachable state they tell the same story.
-/
open BuildPal.Lib

namespace BuildPal.Scheduler

/-- Where a session works, and what for. -/
def Session.place (obj : Session) : NodeId × TaskId := (obj.node, obj.task)

/-- The tasks of the registered sessions of a node. -/
def tasksOn (s : NodeManager) (n : NodeId) : List TaskId :=
  s.sessions.filterMap fun sid =>
    ((s.objects sid).map Session.place).bind fun p => if p.1 = n then some p.2 else none

structure Records (s : NodeManager) : Prop where
  fresh : ∀ sid obj, s.objects sid = some obj → sid ≤ s.counter
  nodup : s.sessions.Nodup
  object : ∀ sid ∈ s.sessions, ∃ obj, s.objects sid = some obj ∧ sid ∈ (s.tasks obj.task).sessionsRunning
  running : ∀ t, ∀ sid ∈ (s.tasks t).sessionsRunning, sid ∈ s.sessions ∧ ∃ obj, s.objects sid = some obj ∧ obj.task = t
  runningNodup : ∀ t, (s.tasks t).sessionsRunning.Nodup
  onNode : ∀ n, (s.tasksRunning n).Perm (tasksOn s n)
  change : ∀ sid obj, s.objects sid = some obj → (s.nodes obj.node).tasksChange = true
  idle : ∀ n, (s.nodes n).tasksChange = false → (s.nodes n).tasksSent = 0
  made : ∀ sid obj, s.objects sid = some obj → (s.tasks obj.task).scan = some .scheduled
  queued : ∀ t, Queued s t → (s.tasks t).scan = some .scheduled
  completedBy : ∀ t sid, (s.tasks t).completedBySession = some sid → ∃ obj, s.objects sid = some obj ∧ obj.task = t
  known : ∀ t, (s.tasks t).scan ≠ none → t ∈ (s.commands t.command).tasks
  winner : ∀ sid obj, sid ∈ s.sessions → s.objects sid = some obj → obj.session.state = .receiveObjectFile →
    (s.tasks obj.task).completedBySession = some sid
  reported : ∀ t, t ∈ (s.commands t.command).completed → (s.tasks t).scan = some .failed ∨
    ∃ sid, (s.tasks t).completedBySession = some sid ∧ sid ∉ s.sessions
  connectingSlotted : ∀ p ∈ s.connecting, s.slotless p.2 = false
  madeSlotted : ∀ sid obj, s.objects sid = some obj → s.slotless obj.node = false
  slotlessIdle : ∀ n, s.slotless n = true → (s.nodes n).tasksCompleted = 0

theorem tasksOn_opened {s s' : NodeManager} {t : TaskId} {node : NodeId} (ho : Opened s t node s')
    (hunused : s.counter + 1 ∉ s.sessions) (n : NodeId) :
    tasksOn s' n = tasksOn s n ++ if node = n then [t] else [] := by
  obtain ⟨new, hself, hnew⟩ := ho.object_new
  unfold tasksOn
  rw [ho.sessions, List.filterMap_append]
  congr 1
  · apply List.filterMap_congr
    intro sid hsid
    have hne : sid ≠ s.counter + 1 := by
      rintro rfl
      exact hunused hsid
    rw [ho.object_old hne]
  · by_cases hn : node = n
    · simp [Session.place, hself, hnew.node, hnew.task, hn]
    · simp [Session.place, hself, hnew.node, hn]

namespace Records
variable {s s' : NodeManager} {t : TaskId} {node : NodeId} {sid : SessionId} {obj : Session} {result : SessionResult}

theorem task_mem (h : Records s) (hsid : sid ∈ s.sessions) (hobj : s.objects sid = some obj) :
    obj.task ∈ s.tasksRunning obj.node := by
  apply (h.onNode obj.node).mem_iff.2
  apply List.mem_filterMap.2
  exact ⟨sid, hsid, by simp [hobj, Session.place]⟩

theorem tasksRunning_scheduled (h : Records s) (ht : t ∈ s.tasksRunning node) : (s.tasks t).scan = some .scheduled := by
  obtain ⟨sid, -, hp⟩ := List.mem_filterMap.1 ((h.onNode node).mem_iff.1 ht)
  cases hobj : s.objects sid with
  | none => simp [hobj] at hp
  | some obj =>
    simp only [hobj, Option.map_some, Option.bind_some, Session.place] at hp
    split at hp
    · cases hp
      exact h.made sid obj hobj
    · cases hp

theorem running_of_object (h : Records s) (hsid : sid ∈ s.sessions) (hobj : s.objects sid = some obj) :
    sid ∈ (s.tasks obj.task).sessionsRunning := by
  obtain ⟨obj', hobj', hrun⟩ := h.object sid hsid
  rw [hobj] at hobj'
  cases hobj'
  exact hrun

/-- Nothing runs on a node without job slots. -/
theorem tasksOn_slotless (h : Records s) (hnode : s.slotless node = true) : tasksOn s node = [] := by
  apply List.eq_nil_iff_forall_not_mem.2
  intro t ht
  obtain ⟨sid, -, hp⟩ := List.mem_filterMap.1 ht
  obtain ⟨p, hplace, hp⟩ := Option.bind_eq_some_iff.1 hp
  obtain ⟨obj, hobj, rfl⟩ := Option.map_eq_some_iff.1 hplace
  split at hp
  · rename_i heq
    have hslots := h.madeSlotted sid obj hobj
    rw [show obj.node = node from heq, hnode] at hslots
    cases hslots
  · cases hp

/-- A node without job slots has completed nothing, so that stealing from it never counts them. -/
theorem slotless_not_viable (h : Records s) (hnode : s.slotless node = true) (tgt : NodeId) :
    s.tasksViableForStealing node tgt = [] := by
  have haverage : (s.nodes node).averageTaskTime = 0 := by
    unfold NodeInfo.averageTaskTime
    rw [if_pos (h.slotlessIdle node hnode)]
  unfold NodeManager.tasksViableForStealing
  rw [haverage, if_pos rfl]

/-- A session that is to complete is where it belongs. -/
theorem completes (h : Records s) (hsid : sid ∈ s.sessions) (hobj : s.objects sid = some obj)
    (hresult : obj.session.result = some result)
    (hwin : result = .success → (s.tasks obj.task).completedBySession = some sid) : Completes s sid obj result where
  registered := hsid
  onNode := h.task_mem hsid hobj
  slotted := h.madeSlotted sid obj hobj
  hasResult := hresult
  running := h.running_of_object hsid hobj
  change := h.change sid obj hobj
  known := h.known _ (by simp [h.made sid obj hobj])
  winner := hwin
  unreported hs hmem := by
    rcases h.reported _ hmem with hf | ⟨sid', hc, hgone⟩
    · rw [h.made sid obj hobj] at hf
      cases hf
    · rw [hwin hs] at hc
      cases hc
      exact hgone hsid

/-! ## One lemma for each kind of change -/

/-- Tasks with sessions or in the queue are moved. -/
theorem of_queue {extra : TaskId → Prop} (h : Records s) (hq : QueueStep s s' extra)
    (hextra : ∀ t, extra t → (s.tasks t).scan = some .scheduled) : Records s' := by
  have hqueued : ∀ t, Queued s' t → (s.tasks t).scan = some .scheduled := by
    intro t ht
    rcases hq.origin t ht with ht | ht
    · exact h.queued t ht
    · exact hextra t ht
  have hslotted : ∀ p ∈ s'.connecting, s.slotless p.2 = false := fun p hp =>
    (hq.slotted p hp).elim (h.connectingSlotted p) id
  rw [hq.same] at hqueued ⊢
  exact { h with queued := hqueued, connectingSlotted := hslotted }

/-- Sessions change inside, and completed sessions are entered: no session moves, and nothing else of the
tasks changes. -/
theorem of_places (h : Records s) {objects : SessionId → Option Session} {tasks : TaskId → Task}
    (hplaces : ∀ sid, (objects sid).map Session.place = (s.objects sid).map Session.place)
    (htasks : ∀ t, tasks t = { s.tasks t with completedBySession := (tasks t).completedBySession })
    (hkept : ∀ t sid, (s.tasks t).completedBySession = some sid → (tasks t).completedBySession = some sid)
    (hentered : ∀ t sid, (tasks t).completedBySession = some sid →
      (s.tasks t).completedBySession = some sid ∨ ∃ obj, s.objects sid = some obj ∧ obj.task = t)
    (hwin : ∀ sid obj, sid ∈ s.sessions → objects sid = some obj → obj.session.state = .receiveObjectFile →
      (tasks obj.task).completedBySession = some sid) : Records { s with objects, tasks } := by
  -- Objects may have changed, but not where they stand: each old one has a new one there, and the other way round.
  have hold : ∀ sid obj, objects sid = some obj →
      ∃ obj', s.objects sid = some obj' ∧ obj.node = obj'.node ∧ obj.task = obj'.task := by
    intro sid obj hobj
    have hp := hplaces sid
    rw [hobj] at hp
    obtain ⟨obj', hobj', hp⟩ := Option.map_eq_some_iff.1 hp.symm
    exact ⟨obj', hobj', (congrArg Prod.fst hp).symm, (congrArg Prod.snd hp).symm⟩
  have hnew : ∀ sid obj, s.objects sid = some obj → ∃ obj', objects sid = some obj' ∧ obj'.task = obj.task := by
    intro sid obj hobj
    have hp := hplaces sid
    rw [hobj] at hp
    obtain ⟨obj', hobj', hp⟩ := Option.map_eq_some_iff.1 hp
    exact ⟨obj', hobj', congrArg Prod.snd hp⟩
  have hscan : ∀ t, (tasks t).scan = (s.tasks t).scan := fun t => by rw [htasks]
  have hrunning : ∀ t, (tasks t).sessionsRunning = (s.tasks t).sessionsRunning := fun t => by rw [htasks]
  constructor
  case nodup => exact h.nodup
  case idle => exact h.idle
  case winner => exact hwin
  case connectingSlotted => exact h.connectingSlotted
  case slotlessIdle => exact h.slotlessIdle
  case madeSlotted =>
    intro sid obj hobj
    obtain ⟨obj', hobj', hn, -⟩ := hold sid obj hobj
    show s.slotless obj.node = false
    rw [hn]
    exact h.madeSlotted sid obj' hobj'
  case fresh =>
    intro sid obj hobj
    obtain ⟨obj', hobj', -⟩ := hold sid obj hobj
    exact h.fresh sid obj' hobj'
  case object =>
    intro sid hsid
    obtain ⟨obj, hobj, hrun⟩ := h.object sid hsid
    obtain ⟨obj', hobj', ht⟩ := hnew sid obj hobj
    exact ⟨obj', hobj', by rw [hrunning, ht]; exact hrun⟩
  case running =>
    intro t sid hsid
    rw [hrunning] at hsid
    obtain ⟨hs, obj, hobj, ht⟩ := h.running t sid hsid
    obtain ⟨obj', hobj', ht'⟩ := hnew sid obj hobj
    exact ⟨hs, obj', hobj', ht'.trans ht⟩
  case runningNodup =>
    intro t
    rw [hrunning]
    exact h.runningNodup t
  case onNode =>
    intro n
    have hsame : tasksOn { s with objects, tasks } n = tasksOn s n := by
      unfold tasksOn
      simp only [hplaces]
    rw [hsame]
    exact h.onNode n
  case change =>
    intro sid obj hobj
    obtain ⟨obj', hobj', hn, -⟩ := hold sid obj hobj
    rw [hn]
    exact h.change sid obj' hobj'
  case made =>
    intro sid obj hobj
    obtain ⟨obj', hobj', -, ht⟩ := hold sid obj hobj
    rw [hscan, ht]
    exact h.made sid obj' hobj'
  case queued =>
    intro t ht
    rw [hscan]
    exact h.queued t ht
  case completedBy =>
    intro t sid hc
    obtain ⟨obj, hobj, ht⟩ : ∃ obj, s.objects sid = some obj ∧ obj.task = t := by
      rcases hentered t sid hc with hc | hc
      · exact h.completedBy t sid hc
      · exact hc
    obtain ⟨obj', hobj', ht'⟩ := hnew sid obj hobj
    exact ⟨obj', hobj', ht'.trans ht⟩
  case known =>
    intro t ht
    rw [hscan] at ht
    exact h.known t ht
  -- A winner stays the winner, and is still gone.
  case reported =>
    intro t ht
    rw [hscan]
    rcases h.reported t ht with hf | ⟨sid, hc, hgone⟩
    · exact .inl hf
    · exact .inr ⟨sid, hkept t sid hc, hgone⟩

theorem setObject (h : Records s) {obj' : Session} (hobj : s.objects sid = some obj) (hplace : obj'.place = obj.place)
    (hwin : sid ∈ s.sessions → obj'.session.state = .receiveObjectFile →
      (s.tasks obj.task).completedBySession = some sid) : Records (s.setObject sid obj') := by
  refine h.of_places ?_ (fun _ => rfl) (fun _ _ hc => hc) (fun _ _ hc => .inl hc) ?_
  · intro other
    by_cases heq : other = sid
    · subst heq
      simp [hobj, hplace]
    · simp [heq]
  · intro other o hother ho hstate
    by_cases heq : other = sid
    · subst heq
      simp only [Function.update_self, Option.some.injEq] at ho
      subst ho
      have htask : obj'.task = obj.task := congrArg Prod.snd hplace
      rw [htask]
      exact hwin hother hstate
    · rw [Function.update_of_ne heq] at ho
      exact h.winner other o hother ho hstate

/-- The session completes its task, and the others of the task are cancelled. -/
theorem registerCompletion (h : Records s) (hobj : s.objects sid = some obj) :
    Records (s.registerCompletion sid obj.task).1 := by
  unfold NodeManager.registerCompletion
  simp only
  split
  · exact h
  · rename_i hnot
    have hnone : (s.tasks obj.task).completedBySession = none := by simpa [Task.isCompleted] using hnot
    -- a task whose session is entered already is another one
    have hother : ∀ t sid', (s.tasks t).completedBySession = some sid' → t ≠ obj.task := by
      rintro t sid' hc rfl
      rw [hnone] at hc
      cases hc
    refine h.of_places ?_ ?_ ?_ ?_ ?_
    · intro other
      split
      · cases s.objects other <;> rfl
      · rfl
    · intro t
      by_cases ht : t = obj.task
      · subst ht
        simp
      · simp [ht]
    · intro t sid' hc
      rw [Function.update_of_ne (hother t sid' hc)]
      exact hc
    · intro t sid' hc
      by_cases ht : t = obj.task
      · subst ht
        rw [Function.update_self] at hc
        cases hc
        exact .inr ⟨obj, hobj, rfl⟩
      · rw [Function.update_of_ne ht] at hc
        exact .inl hc
    · intro other o hmem ho hstate
      obtain ⟨o', ho', htask, hstate'⟩ :
          ∃ o', s.objects other = some o' ∧ o'.task = o.task ∧ o'.session.state = o.session.state := by
        split at ho
        · obtain ⟨o', ho', rfl⟩ := Option.map_eq_some_iff.1 ho
          exact ⟨o', ho', rfl, rfl⟩
        · exact ⟨o, ho, rfl, rfl⟩
      have hc := h.winner other o' hmem ho' (hstate'.trans hstate)
      rw [htask] at hc
      rw [Function.update_of_ne (hother _ _ hc)]
      exact hc

/-- Connection attempts end. -/
theorem of_fewer (h : Records s) {connecting : List (TaskId × NodeId)} (hsub : connecting ⊆ s.connecting) :
    Records { s with connecting } := by
  refine { h with
    queued := fun t ht => h.queued t ?_
    connectingSlotted := fun p hp => h.connectingSlotted p (hsub hp) }
  rcases ht with ht | ⟨n, ht⟩
  · exact .inl ht
  · exact .inr ⟨n, hsub ht⟩

theorem opened (h : Records s) (hscan : (s.tasks t).scan = some .scheduled) (hslots : s.slotless node = false)
    (ho : Opened s t node s') : Records s' := by
  have hslotless : ∀ n, s'.slotless n = s.slotless n := fun n => congrArg Option.isNone (ho.jobSlots n)
  -- The new session gets the next number, which no object had before.
  have hne : ∀ sid obj, s.objects sid = some obj → sid ≠ s.counter + 1 := by
    rintro sid obj hobj rfl
    exact Nat.not_succ_le_self _ (h.fresh _ obj hobj)
  have hunused : s.counter + 1 ∉ s.sessions := by
    intro hmem
    obtain ⟨obj, hobj, -⟩ := h.object _ hmem
    exact hne _ obj hobj rfl
  have hkeep : ∀ sid obj, s.objects sid = some obj → s'.objects sid = some obj :=
    fun sid obj hobj => (ho.object_kept (h.fresh sid obj hobj)).trans hobj
  obtain ⟨new, hself, hnew⟩ := ho.object_new
  have htasks := ho.task
  constructor
  case nodup =>
    rw [ho.sessions]
    refine List.nodup_append.2 ⟨h.nodup, by simp, ?_⟩
    rintro a ha b hb rfl
    obtain rfl := List.mem_singleton.1 hb
    exact hunused ha
  case fresh =>
    intro sid obj hobj
    rw [ho.counter]
    rcases ho.object_cases hobj with ⟨-, hobj⟩ | ⟨rfl, -⟩
    · exact (h.fresh sid obj hobj).trans (Nat.le_succ _)
    · exact le_rfl
  case object =>
    intro sid hsid
    rw [ho.sessions] at hsid
    rcases List.mem_append.1 hsid with hsid | hsid
    · obtain ⟨obj, hobj, hrun⟩ := h.object sid hsid
      refine ⟨obj, hkeep sid obj hobj, ?_⟩
      rw [htasks]
      exact List.mem_append_left _ hrun
    · obtain rfl := List.mem_singleton.1 hsid
      exact ⟨new, hself, by rw [htasks, hnew.task]; simp⟩
  case running =>
    intro t' sid hsid
    rw [htasks] at hsid
    rw [ho.sessions]
    rcases List.mem_append.1 hsid with hsid | hsid
    · obtain ⟨hs, obj, hobj, ht⟩ := h.running t' sid hsid
      exact ⟨List.mem_append_left _ hs, obj, hkeep sid obj hobj, ht⟩
    · split at hsid
      · rename_i ht
        obtain rfl := List.mem_singleton.1 hsid
        exact ⟨by simp, new, hself, hnew.task.trans ht.symm⟩
      · cases hsid
  case runningNodup =>
    intro t'
    rw [htasks]
    refine List.nodup_append.2 ⟨h.runningNodup t', by split <;> simp, ?_⟩
    rintro a ha b hb rfl
    split at hb
    · obtain rfl := List.mem_singleton.1 hb
      exact hunused (h.running t' _ ha).1
    · cases hb
  case onNode =>
    intro n
    rw [tasksOn_opened ho hunused, ho.tasksRunning]
    by_cases hn : node = n
    · subst hn
      rw [Function.update_self, if_pos rfl]
      exact (h.onNode node).append_right [t]
    · have hn' : n ≠ node := fun h => hn h.symm
      rw [Function.update_of_ne hn', if_neg hn, List.append_nil]
      exact h.onNode n
  case change =>
    intro sid obj hobj
    rcases ho.object_cases hobj with ⟨-, hobj⟩ | ⟨-, hnew⟩
    · rcases ho.nodes obj.node with hn | ⟨-, hn⟩
      · exact hn
      · rw [hn]
        exact h.change sid obj hobj
    · rw [hnew.node]
      rcases ho.nodes node with hn | ⟨hne, -⟩
      · exact hn
      · exact absurd rfl hne
  case idle =>
    intro n hn
    rcases ho.nodes n with hn' | ⟨-, hn'⟩
    · rw [hn] at hn'
      cases hn'
    · rw [hn'] at hn ⊢
      exact h.idle n hn
  case made =>
    intro sid obj hobj
    rw [htasks]
    rcases ho.object_cases hobj with ⟨-, hobj⟩ | ⟨-, hnew⟩
    · exact h.made sid obj hobj
    · rw [hnew.task]
      exact hscan
  case queued =>
    intro t' ht'
    rw [htasks]
    exact h.queued t' (ho.queued.1 ht')
  case completedBy =>
    intro t' sid hc
    rw [htasks] at hc
    obtain ⟨obj, hobj, ht⟩ := h.completedBy t' sid hc
    exact ⟨obj, hkeep sid obj hobj, ht⟩
  case known =>
    intro t' ht'
    rw [htasks] at ht'
    rw [ho.commands]
    exact h.known t' ht'
  case winner =>
    intro sid obj hsid hobj hst
    rcases ho.object_cases hobj with ⟨hold, hobj⟩ | ⟨-, hnew⟩
    · rw [htasks]
      exact h.winner sid obj (ho.session_old hsid hold) hobj hst
    · rw [hnew.state] at hst
      cases hst
  case reported =>
    intro t' ht'
    rw [ho.commands] at ht'
    rw [htasks, ho.sessions]
    rcases h.reported t' ht' with hf | ⟨sid, hc, hgone⟩
    · exact .inl hf
    · refine .inr ⟨sid, hc, fun hmem => ?_⟩
      rcases List.mem_append.1 hmem with hmem | hmem
      · exact hgone hmem
      · obtain ⟨obj, hobj, -⟩ := h.completedBy t' sid hc
        exact hne sid obj hobj (List.mem_singleton.1 hmem)
  case connectingSlotted =>
    intro p hp
    rw [ho.connecting] at hp
    rw [hslotless]
    exact h.connectingSlotted p hp
  case madeSlotted =>
    intro sid obj hobj
    rw [hslotless]
    rcases ho.object_cases hobj with ⟨-, hobj⟩ | ⟨-, hnew⟩
    · exact h.madeSlotted sid obj hobj
    · rw [hnew.node]
      exact hslots
  case slotlessIdle =>
    intro n hn
    rw [hslotless] at hn
    rw [ho.tasksCompleted]
    exact h.slotlessIdle n hn

theorem createSession (h : Records s) (hscan : (s.tasks t).scan = some .scheduled) (hslots : s.slotless node = false) :
    Records (s.createSession t node) := by
  rcases createSession_spec s t node with ⟨failure, heq, -⟩ | ho
  · rw [heq]
    exact { h with fresh := fun sid obj hobj => (h.fresh sid obj hobj).trans (Nat.le_succ _) }
  · exact h.opened hscan hslots ho

theorem addTasksSent_ne_none (h : Records s) : (s.nodes node).addTasksSent ≠ none := by
  intro hnone
  unfold NodeInfo.addTasksSent NodeInfo.tasksPendingAboutToChange at hnone
  split at hnone
  · rename_i hpending
    have hsent := h.idle node hpending.2
    have hpos := hpending.1
    unfold NodeInfo.tasksPending at hpos
    omega
  · cases hnone

/-- Only the identifiers can run out. -/
theorem createSession_opened (h : Records s) (hid : s.counter + 1 < 2 ^ 32) : Opened s t node (s.createSession t node) := by
  rcases createSession_spec s t node with ⟨failure, -, ⟨-, hfull⟩ | ⟨-, hnone⟩⟩ | ho
  · exact absurd hfull (Nat.not_le.2 hid)
  · exact absurd hnone h.addTasksSent_ne_none
  · exact ho

/-- A session completes. -/
theorem completed (h : Records s) (hsid : sid ∈ s.sessions) (hobj : s.objects sid = some obj)
    (hwin : result = .success → (s.tasks obj.task).completedBySession = some sid)
    (hc : Completed s sid obj result s') : Records s' := by
  have hgone : sid ∉ s'.sessions := by
    rw [hc.sessions]
    exact h.nodup.not_mem_erase
  have hstays : ∀ other ∈ s'.sessions, other ∈ s.sessions ∧ other ≠ sid := by
    intro other hother
    refine ⟨?_, fun heq => hgone (heq ▸ hother)⟩
    rw [hc.sessions] at hother
    exact List.mem_of_mem_erase hother
  constructor
  case nodup =>
    rw [hc.sessions]
    exact h.nodup.erase sid
  case fresh =>
    rw [hc.objects, hc.counter]
    exact h.fresh
  case object =>
    intro other hother
    obtain ⟨hmem, hne⟩ := hstays other hother
    obtain ⟨o, ho, hrun⟩ := h.object other hmem
    refine ⟨o, by rw [hc.objects]; exact ho, ?_⟩
    rw [hc.sessionsRunning]
    split
    · exact (List.mem_erase_of_ne hne).2 hrun
    · exact hrun
  case running =>
    intro t other hother
    have hold : other ∈ (s.tasks t).sessionsRunning ∧ other ≠ sid := by
      rw [hc.sessionsRunning] at hother
      split at hother
      · rename_i ht
        refine ⟨List.mem_of_mem_erase hother, ?_⟩
        rintro rfl
        exact (h.runningNodup t).not_mem_erase hother
      · rename_i ht
        refine ⟨hother, ?_⟩
        rintro rfl
        obtain ⟨-, o, ho, hot⟩ := h.running t other hother
        rw [hobj] at ho
        cases ho
        exact ht hot.symm
    obtain ⟨hmem, o, ho, hot⟩ := h.running t other hold.1
    refine ⟨?_, o, by rw [hc.objects]; exact ho, hot⟩
    rw [hc.sessions]
    exact (List.mem_erase_of_ne hold.2).2 hmem
  case runningNodup =>
    intro t
    rw [hc.sessionsRunning]
    split
    · exact (h.runningNodup t).erase sid
    · exact h.runningNodup t
  case onNode =>
    intro n
    -- the session was one of the manager's, so its task goes from the list of its node
    have hperm : (tasksOn s n).Perm ((if obj.node = n then [obj.task] else []) ++ tasksOn s' n) := by
      unfold tasksOn
      rw [hc.sessions, hc.objects]
      refine ((List.perm_cons_erase hsid).filterMap _).trans (.of_eq ?_)
      by_cases hn : obj.node = n
      · simp [hobj, Session.place, hn]
      · simp [hobj, Session.place, hn]
    rw [hc.tasksRunning]
    by_cases hn : obj.node = n
    · subst hn
      rw [if_pos rfl] at hperm
      rw [Function.update_self]
      have := ((h.onNode obj.node).trans hperm).erase obj.task
      simpa using this
    · have hn' : n ≠ obj.node := fun h => hn h.symm
      rw [if_neg hn] at hperm
      rw [Function.update_of_ne hn']
      exact (h.onNode n).trans hperm
  case change =>
    rw [hc.objects]
    intro other o ho
    rcases hc.nodes o.node with hn | hn
    · exact hn
    · rw [hn]
      exact h.change other o ho
  case idle =>
    intro n hn
    rcases hc.nodes n with hn' | hn'
    · rw [hn] at hn'
      cases hn'
    · rw [hn'] at hn ⊢
      exact h.idle n hn
  case made =>
    intro other o ho
    rw [hc.objects] at ho
    rw [hc.scan]
    exact h.made other o ho
  case queued =>
    intro t ht
    rw [hc.scan]
    rcases hc.origin t ht with ht | ⟨n, ht⟩
    · exact h.queued t ht
    · exact h.tasksRunning_scheduled ht
  case completedBy =>
    intro t other hcomp
    rw [hc.objects]
    exact h.completedBy t other (hc.completedBy_old hcomp)
  case known =>
    intro t ht
    rw [hc.scan] at ht
    rw [hc.commandTasks]
    exact h.known t ht
  case winner =>
    intro other o hother ho hstate
    obtain ⟨hmem, hne⟩ := hstays other hother
    rw [hc.objects] at ho
    exact hc.completedBy_kept (.inl hne) (h.winner other o hmem ho hstate)
  case reported =>
    intro t ht
    rw [hc.scan]
    rcases hc.commandCompleted t ht with ht | ⟨rfl, rfl⟩
    · rcases h.reported t ht with hf | ⟨other, hcomp, hother⟩
      · exact .inl hf
      · have hne : other ≠ sid := fun heq => hother (heq ▸ hsid)
        exact .inr ⟨other, hc.completedBy_kept (.inl hne) hcomp, fun hmem => hother (hstays other hmem).1⟩
    · exact .inr ⟨sid, hc.completedBy_kept (.inr rfl) (hwin rfl), hgone⟩
  case connectingSlotted =>
    intro p hp
    rw [hc.slotless]
    exact (hc.slotted p hp).elim (h.connectingSlotted p) id
  case madeSlotted =>
    intro other o ho
    rw [hc.objects] at ho
    rw [hc.slotless]
    exact h.madeSlotted other o ho
  case slotlessIdle =>
    intro n hn
    rw [hc.slotless] at hn
    -- the node of the session has job slots
    have hne : n ≠ obj.node := by
      rintro rfl
      rw [h.madeSlotted sid obj hobj] at hn
      cases hn
    rw [hc.otherNodes n hne]
    exact h.slotlessIdle n hn

/-- A task that was not scheduled has no session. -/
theorem no_session (h : Records s) (hscan : (s.tasks t).scan ≠ some .scheduled) :
    (s.tasks t).sessionsRunning = [] ∧ (s.tasks t).completedBySession = none ∧ ¬ Queued s t ∧
      ∀ sid obj, s.objects sid = some obj → obj.task ≠ t := by
  have hobjects : ∀ sid obj, s.objects sid = some obj → obj.task ≠ t := by
    rintro sid obj hobj rfl
    exact hscan (h.made sid obj hobj)
  refine ⟨?_, ?_, fun hq => hscan (h.queued t hq), hobjects⟩
  · apply List.eq_nil_iff_forall_not_mem.2
    intro sid hsid
    obtain ⟨-, obj, hobj, ht⟩ := h.running t sid hsid
    exact hobjects sid obj hobj ht
  · cases hc : (s.tasks t).completedBySession with
    | none => rfl
    | some sid =>
      obtain ⟨obj, hobj, ht⟩ := h.completedBy t sid hc
      exact absurd ht (hobjects sid obj hobj)

/-- A task of the source scanner has nothing reported. -/
theorem unreported (h : Records s) (hscan : (s.tasks t).scan = none) : t ∉ (s.commands t.command).completed := by
  intro hmem
  rcases h.reported t hmem with hf | ⟨sid, hc, -⟩
  · rw [hscan] at hf
    cases hf
  · rw [(h.no_session (by simp [hscan])).2.1] at hc
    cases hc

/-- The records of tasks without sessions are replaced. -/
theorem of_tasks (h : Records s) {tasks : TaskId → Task} {commands : CommandId → Command}
    (hold : ∀ t, tasks t = s.tasks t ∨ (s.tasks t).scan = none ∧ (tasks t).sessionsRunning = [] ∧
      (tasks t).completedBySession = none)
    (hknown : ∀ t, (tasks t).scan ≠ none → t ∈ (commands t.command).tasks)
    (hreported : ∀ t, t ∈ (commands t.command).completed → (tasks t).scan = some .failed ∨
      tasks t = s.tasks t ∧ t ∈ (s.commands t.command).completed) : Records { s with tasks, commands } := by
  have hkeep : ∀ t, (s.tasks t).scan = some .scheduled → tasks t = s.tasks t := by
    intro t ht
    rcases hold t with heq | ⟨hnone, -⟩
    · exact heq
    · rw [ht] at hnone
      cases hnone
  refine { h with
    object := ?_, running := ?_, runningNodup := ?_, made := ?_, queued := ?_, completedBy := ?_, known := hknown
    winner := ?_, reported := ?_ }
  all_goals dsimp only
  · intro sid hsid
    obtain ⟨obj, hobj, hrun⟩ := h.object sid hsid
    exact ⟨obj, hobj, by rw [hkeep _ (h.made sid obj hobj)]; exact hrun⟩
  · intro t sid hsid
    rcases hold t with heq | ⟨-, hnone, -⟩
    · rw [heq] at hsid
      exact h.running t sid hsid
    · rw [hnone] at hsid
      cases hsid
  · intro t
    rcases hold t with heq | ⟨-, hnone, -⟩
    · rw [heq]
      exact h.runningNodup t
    · rw [hnone]
      exact List.nodup_nil
  · intro sid obj hobj
    rw [hkeep _ (h.made sid obj hobj)]
    exact h.made sid obj hobj
  · intro t ht
    rw [hkeep t (h.queued t ht)]
    exact h.queued t ht
  · intro t sid hc
    rcases hold t with heq | ⟨-, -, hnone⟩
    · rw [heq] at hc
      exact h.completedBy t sid hc
    · rw [hnone] at hc
      cases hc
  · intro sid obj hsid hobj hstate
    rw [hkeep _ (h.made sid obj hobj)]
    exact h.winner sid obj hsid hobj hstate
  · intro t ht
    rcases hreported t ht with hf | ⟨heq, hmem⟩
    · exact .inl hf
    · rw [heq]
      exact h.reported t hmem

end Records

end BuildPal.Scheduler
