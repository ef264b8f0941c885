import Mathlib.Data.List.Basic
/-!
# The search path

`getPath` and `findOnPath` of `client.cpp`: the client takes `PATH` apart to
look for the compiler's files, in the compiler's directory first and then in
the directories listed.
-/

namespace BuildPal.Client.SearchPath

abbrev Path := List Char

/-- The loop of `getPath`, with what `path` has from `iter` on. -/
def pathLoop (path : Path) : Path → Nat → Nat → List Path → List Path
  | [], _, _, result => result
  | c :: rest, iter, last, result =>
    if c = ';' ∧ iter ≠ last + 1 then
      pathLoop path rest (iter + 1) (iter + 1) (result ++ [(path.take iter).drop last])
    else pathLoop path rest (iter + 1) last result

/-- `path` is what `env.get( "PATH" )` gives. -/
def getPath (path : Option Path) (result : List Path) : List Path :=
  match path with
  | none => result
  | some path => pathLoop path path 0 0 result

/-- `PathCombine` and `PathFileExists` belong to the system. -/
def findOnPath (pathCombine : Path → Path → Path) (pathFileExists : Path → Bool) : List Path → Path → Option Path
  | [], _ => none
  | dir :: pathList, file =>
    let tmp := pathCombine dir file
    if pathFileExists tmp then some tmp else findOnPath pathCombine pathFileExists pathList file

/-- The directories that a value of `PATH` lists. -/
def components (path : Path) : List Path := (path.splitOn ';').filter (· ≠ [])

/-- What `getPath` is to append, and where `findOnPath` looks then. -/
structure FindsAll (path : Path) : Prop where
  appended : ∀ result, getPath (some path) result = result ++ components path
  searched : ∀ pathCombine pathFileExists result file,
    findOnPath pathCombine pathFileExists (getPath (some path) result) file =
      ((result ++ components path).map (pathCombine · file)).find? pathFileExists

/-- Every separator ends a component of two characters at least, and nothing follows the last one. -/
def Terminated (path : Path) : Prop :=
  (∀ c ∈ (path.splitOn ';').dropLast, 2 ≤ c.length) ∧ (path.splitOn ';').getLast? = some []

/-! ## The loop takes the path apart -/

/-- What the loop appends, with what it has passed since the last component. -/
def pieces (current : Path) : Path → List Path
  | [] => []
  | c :: rest =>
    if c = ';' ∧ current.length ≠ 1 then current :: pieces [] rest else pieces (current ++ [c]) rest

theorem pathLoop_eq (rest : Path) : ∀ (before current : Path) (result : List Path),
    pathLoop (before ++ current ++ rest) rest (before.length + current.length) before.length result =
      result ++ pieces current rest := by
  induction rest with
  | nil =>
    intro before current result
    simp [pathLoop, pieces]
  | cons c rest ih =>
    intro before current result
    rw [pathLoop, pieces]
    simp only [ne_eq, Nat.add_left_cancel_iff]
    split
    · have hpiece : ((before ++ current ++ c :: rest).take (before.length + current.length)).drop before.length =
          current := by
        rw [← List.length_append, List.take_left', List.drop_left']
        · rfl
        · rfl
      have hnext := ih (before ++ current ++ [c]) [] (result ++ [current])
      rw [hpiece]
      simpa [Nat.add_assoc] using hnext
    · have hnext := ih before (current ++ [c]) result
      simpa [Nat.add_assoc] using hnext

theorem getPath_eq (path : Path) (result : List Path) : getPath (some path) result = result ++ pieces [] path :=
  pathLoop_eq path [] [] result

theorem findOnPath_eq (pathCombine : Path → Path → Path) (pathFileExists : Path → Bool) (pathList : List Path)
    (file : Path) : findOnPath pathCombine pathFileExists pathList file =
      (pathList.map (pathCombine · file)).find? pathFileExists := by
  induction pathList with
  | nil => rfl
  | cons dir pathList ih =>
    rw [findOnPath, List.map_cons, List.find?_cons, ih]
    cases pathFileExists (pathCombine dir file) <;> rfl

/-- A component that has been begun is not given up. -/
theorem prefix_of_head (rest : Path) :
    ∀ current piece, (pieces current rest).head? = some piece → current <+: piece := by
  induction rest with
  | nil =>
    intro current piece h
    cases h
  | cons c rest ih =>
    intro current piece h
    rw [pieces] at h
    split at h
    · obtain rfl := Option.some.inj h
      exact List.prefix_refl _
    · exact (List.prefix_append current [c]).trans (ih _ piece h)

theorem components_cons {current : Path} (hfree : ';' ∉ current) (rest : Path) :
    components (current ++ ';' :: rest) = [current].filter (· ≠ []) ++ components rest := by
  rw [components, List.splitOn_append_cons_self_of_not_mem hfree, ← List.singleton_append, List.filter_append]
  rfl

theorem terminated_cons {current : Path} (hfree : ';' ∉ current) (rest : Path) :
    Terminated (current ++ ';' :: rest) ↔ 2 ≤ current.length ∧ Terminated rest := by
  rw [Terminated, Terminated, List.splitOn_append_cons_self_of_not_mem hfree,
    List.dropLast_cons_of_ne_nil (List.splitOn_ne_nil ';' rest), List.forall_mem_cons, and_assoc,
    List.getLast?_cons_of_ne_nil (List.splitOn_ne_nil ';' rest)]

theorem terminated_last {current : Path} (hfree : ';' ∉ current) : Terminated current ↔ current = [] := by
  simp [Terminated, List.splitOn_eq_singleton hfree]

/-- From the start of a component on the loop finds what is listed if and only if all of it is terminated. -/
theorem pieces_eq_components (rest : Path) : ∀ current, ';' ∉ current →
    (pieces current rest = components (current ++ rest) ↔ Terminated (current ++ rest)) := by
  induction rest with
  | nil =>
    intro current hfree
    rw [List.append_nil, terminated_last hfree, pieces, components, List.splitOn_eq_singleton hfree]
    by_cases hempty : current = [] <;> simp [hempty]
  | cons c rest ih =>
    intro current hfree
    by_cases hc : c = ';'
    · subst hc
      rw [components_cons hfree, terminated_cons hfree, pieces]
      by_cases hone : current.length = 1
      · -- a component of one character is taken for the beginning of the next one
        rw [if_neg (by simp [hone])]
        refine iff_of_false (fun heq => ?_) (by omega)
        have hne : current ≠ [] := by
          rintro rfl
          cases hone
        have hlisted : [current].filter (· ≠ []) ++ components rest = current :: components rest := by simp [hne]
        rw [hlisted] at heq
        have hhead : (pieces (current ++ [';']) rest).head? = some current := by rw [heq]; rfl
        have hlen := (prefix_of_head rest _ _ hhead).length_le
        rw [List.length_append, List.length_singleton] at hlen
        omega
      · rw [if_pos ⟨rfl, hone⟩]
        by_cases hempty : current = []
        · -- an empty component is appended as well
          subst hempty
          refine iff_of_false (fun heq => ?_) (by simp)
          have hmem : [] ∈ [([] : Path)].filter (· ≠ []) ++ components rest := by
            rw [← heq]
            exact List.mem_cons_self
          simp [components] at hmem
        · have hpos : 0 < current.length := List.length_pos_iff.2 hempty
          have hlisted : [current].filter (· ≠ []) ++ components rest = current :: components rest := by simp [hempty]
          have hrest := ih [] (by simp)
          rw [hlisted, List.cons_inj_right]
          simp only [List.nil_append] at hrest
          rw [hrest]
          exact ⟨fun h => ⟨by omega, h⟩, fun h => h.2⟩
    · rw [pieces, if_neg (by simp [hc])]
      have hnext := ih (current ++ [c]) (by simp [hfree, Ne.symm hc])
      simpa using hnext

/-! ## Main theorem -/

/-- **Every directory is found** if and only if each component is ended by a separator and has two characters. -/
theorem finds_all_iff (path : Path) : FindsAll path ↔ Terminated path := by
  have hloop : pieces [] path = components path ↔ Terminated path := by
    simpa using pieces_eq_components path [] (by simp)
  rw [← hloop]
  constructor
  · intro h
    have hall := h.appended []
    rwa [getPath_eq, List.nil_append, List.nil_append] at hall
  · intro hpieces
    have happended : ∀ result, getPath (some path) result = result ++ components path := fun result => by
      rw [getPath_eq, hpieces]
    exact ⟨happended, fun pathCombine pathFileExists result file => by rw [findOnPath_eq, happended]⟩

/-- The last directory of a path that does not end with a separator is not found. -/
theorem last_directory_lost : ¬ FindsAll "C:\\a;C:\\b".toList := by
  intro h
  have hall := congrArg List.length (h.appended [])
  revert hall
  decide

end BuildPal.Client.SearchPath
