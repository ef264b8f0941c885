import BuildPal.Server.HeaderRepository
/-!
# Virtual paths

Checksums are kept for each `(remote_dir, name)`, files for each path. Two keys
may denote one path, and what an earlier session shared stays mapped when the
client has long removed it. We say when a session finds what it listed all the
same, and when the compiler resolves an include as the client did.
-/
open BuildPal.Lib

namespace BuildPal.Headers

section Paths
variable {κ Path : Type} [DecidableEq κ] [DecidableEq Path]
variable (checksum : κ → Nat) (vpath : Key → Path)

/-! ## Two keys for one path -/

/-- All the task may send. -/
def Task.contents (t : Task κ) : List (Key × κ) :=
  t.headers.map (fun (key, _, content) => (key, content)) ++ [(("", t.source), t.sourceContent)]

omit [DecidableEq κ] [DecidableEq Path] in
theorem bundle_contents (t : Task κ) (missing : List Key) : t.bundle missing ⊆ t.contents := by
  intro p hp
  unfold Task.bundle at hp
  unfold Task.contents
  rcases List.mem_append.1 hp with hp | hp
  · obtain ⟨⟨key, relative, content⟩, hx, hk⟩ := List.mem_filterMap.1 hp
    have hpair : (key, content) = p := (by simpa using hk : _ ∧ (key, content) = p).2
    exact List.mem_append_left _ (List.mem_map.2 ⟨_, hx, hpair⟩)
  · exact List.mem_append_right _ hp

/-- A task has one checksum for each path, and a file that is shared where one is mapped already has its checksum. -/
def OneContent (s : State κ Path) : Event κ → Prop
  | .missingFiles _ _ task => (task.headers.map (·.1)).Nodup ∧
    ∀ p ∈ task.contents, ∀ key c, vpath key = vpath p.1 → (key, c) ∈ task.filelist checksum → checksum p.2 = c
  | .createFile sid _ => ∀ x u, s.sessions sid = some x → x.phase.cur = some u → u.upload = .createShared →
    ∀ f, s.repo.globalMap x.machine (vpath u.key) = some f → checksum f.content = checksum u.content
  | _ => True

variable {checksum vpath} {s s' : State κ Path}

omit [DecidableEq κ] [DecidableEq Path] in
theorem OneContent.harmless {e : Event κ} (he : OneContent checksum vpath s e) :
    Harmless checksum vpath (fun x c => checksum x = c) s e := by
  cases e with
  | missingFiles sid mid task =>
    refine ⟨fun _ _ _ => filelist_unique he.1, fun missing key content hmem =>
      ⟨bundle_keys hmem, fun key' c hpath hc => ?_⟩⟩
    exact he.2 (key, content) (bundle_contents task missing hmem) key' c hpath hc
  | createFile sid ok => exact fun x u hx hu hup f hf c hc => (he x u hx hu hup f hf).symm.trans hc
  | _ => trivial

/-- **Aliases do no harm.** In every run whose tasks have one checksum for each path, and in which no file is shared in
place of one with another checksum, a session that compiles finds content with the listed checksum at the path of
every header of its `filelist`. -/
theorem aliases_see_listed_content {es : List (Event κ)}
    (hm : Meets (step checksum vpath) (OneContent checksum vpath) {} es)
    (hr : run (step checksum vpath) {} es = some s) {sid : SessionId} {session : Session κ}
    (hx : s.sessions sid = some session) (hp : session.phase = .compiling) (hlive : session.completed = false)
    {key : Key} {c : Nat} (hmem : (key, c) ∈ session.task.filelist checksum) :
    ∃ f, s.repo.mapped session.machine sid (vpath key) = some f ∧ checksum f.content = c := by
  have hinv : Inv checksum vpath (fun x c => checksum x = c) s :=
    run_inv_of_meets (step checksum vpath) (fun t e t' ht he hstep => (step_inv ht he.harmless hstep).inv) es {} s
      init_inv hm hr
  exact hinv.serves hx hp hlive hmem

/-! ## What comes with the source -/

/-- A relative header or the source: no session shares the file, it is sent with every task. -/
def Task.Brings (checksum : κ → Nat) (t : Task κ) (key : Key) : Prop :=
  key ∈ t.keys ∧ ∀ c, (key, c) ∉ t.filelist checksum

/-- The file is still on its way to the session's own map. -/
def Phase.Carries : Phase κ → Key → Prop
  | .preparing _ todo _ temps, key => key ∈ todo.map (·.1) ∨ key ∈ temps.map (·.1)
  | .prepared, _ | .compiling, _ => False
  | .listed, _ | .failed, _ => True

/-- What a session's task brings is in the session's own map, or on its way there. -/
def Brought (checksum : κ → Nat) (vpath : Key → Path) (s : State κ Path) : Prop :=
  ∀ sid x, s.sessions sid = some x → x.completed = false → ∀ key, x.task.Brings checksum key →
    (∃ f, s.repo.tempMap sid (vpath key) = some f) ∨ x.phase.Carries key

section Brought
variable {good : κ → Nat → Prop} {sid : SessionId} {x x' : Session κ} {r' : HeaderRepository κ Path}

omit [DecidableEq κ] [DecidableEq Path] in
theorem bundle_brings {t : Task κ} {key : Key} (h : t.Brings checksum key) (missing : List Key) :
    key ∈ (t.bundle missing).map (·.1) := by
  obtain ⟨hkey, hlist⟩ := h
  unfold Task.keys at hkey
  unfold Task.bundle
  rw [List.map_append]
  rcases List.mem_append.1 hkey with hkey | hkey
  · obtain ⟨⟨key, relative, content⟩, hx, rfl⟩ := List.mem_map.1 hkey
    refine List.mem_append_left _ (List.mem_map.2 ⟨(key, content), List.mem_filterMap.2 ⟨_, hx, ?_⟩, rfl⟩)
    cases relative with
    | false => exact absurd (mem_filelist.2 ⟨content, hx, rfl⟩) (hlist _)
    | true => simp
  · exact List.mem_append_right _ (by simpa using hkey)

omit [DecidableEq κ] [DecidableEq Path] in
/-- A step is one session's, and touches no other's map. -/
theorem Brought.update (h : Brought checksum vpath s) (ht : ∀ sid', sid' ≠ sid → r'.tempMap sid' = s.repo.tempMap sid')
    (hx' : x'.completed = false → ∀ key, x'.task.Brings checksum key →
      (∃ f, r'.tempMap sid (vpath key) = some f) ∨ x'.phase.Carries key) :
    Brought checksum vpath { repo := r', sessions := Function.update s.sessions sid (some x') } := by
  intro sid' y hy hcomp key hkey
  rcases update_cases hy with ⟨rfl, rfl⟩ | ⟨hne, hy⟩
  · exact hx' hcomp key hkey
  · show (∃ f, r'.tempMap sid' (vpath key) = some f) ∨ _
    rw [ht sid' hne]
    exact h sid' y hy hcomp key hkey

omit [DecidableEq κ] [DecidableEq Path] in
theorem lockFirst_tempMap (r : HeaderRepository κ Path) (mid : MachineId) (key : Key) (c : Nat) :
    (lockFirst r mid key c).1.tempMap = r.tempMap := by
  unfold lockFirst
  split <;> rfl

omit [DecidableEq κ] in
/-- The session stores some of its files; what it brings is among them, or still to come. -/
theorem Brought.store (h : Brought checksum vpath s) (hx : s.sessions sid = some x) (stored : List (Key × κ))
    (phase : Phase κ) (hnext : ∀ key, x.task.Brings checksum key → x.phase.Carries key →
      key ∈ stored.map (·.1) ∨ phase.Carries key) :
    Brought checksum vpath
      (State.withPhase { s with repo := s.repo.processTempFiles vpath sid stored } sid x phase) := by
  have hst : Stored vpath s.repo sid stored (s.repo.processTempFiles vpath sid stored) := processTempFiles_stored _
  refine h.update hst.others fun hcomp key hkey => ?_
  rcases h sid x hx hcomp key hkey with hf | hcar
  · exact .inl (hst.mapped key (.inl hf))
  · rcases hnext key hkey hcar with hin | hcar
    · exact .inl (hst.mapped key (.inr hin))
    · exact .inr hcar

theorem nextFile_brought (hinv : Inv checksum vpath good s) (h : Brought checksum vpath s)
    (hs : step checksum vpath s (.nextFile sid) = some s') : Brought checksum vpath s' := by
  obtain ⟨x, needed, key, content, todo, temps, hx, hp, ⟨-, rfl⟩ | ⟨c, hlook, rfl⟩⟩ := steps_of_step hs
  · refine h.store hx [] _ fun k _ hcar => .inr ?_
    rw [hp] at hcar
    rcases hcar with hk | hk
    · rcases List.mem_cons.1 hk with rfl | hk
      · exact .inr (by simp)
      · exact .inl hk
    · exact .inr (by simp only [List.map_append, List.mem_append]; exact .inl hk)
  · refine h.update (fun sid' _ => by rw [lockFirst_tempMap]) fun hcomp k hk => ?_
    show (∃ f, (lockFirst s.repo x.machine key c).1.tempMap sid (vpath k) = some f) ∨ _
    rw [lockFirst_tempMap]
    rcases h sid x hx hcomp k hk with hf | hcar
    · exact .inl hf
    · rw [hp] at hcar
      rcases hcar with hin | hin
      · rcases List.mem_cons.1 hin with rfl | hin
        · -- a header that was needed is a listed one
          exact absurd ((hinv.preparing hx hp).1 (mem_of_lookup hlook)) (hk.2 c)
        · exact .inr (.inl hin)
      · exact .inr (.inr hin)

theorem createFile_brought (h : Brought checksum vpath s) {ok : Bool}
    (hs : step checksum vpath s (.createFile sid ok) = some s') : Brought checksum vpath s' := by
  obtain ⟨x, needed, todo, u, temps, hx, hp, ⟨-, rfl⟩ | ⟨-, rfl⟩ | ⟨-, rfl⟩⟩ := steps_of_step hs
  · exact h.store hx [] .failed fun _ _ _ => .inr trivial
  · refine h.store hx [(u.key, u.content)] _ fun key _ hcar => .inr ?_
    rwa [hp] at hcar
  · refine h.update (fun _ _ => rfl) fun hcomp key hkey => ?_
    have hold := h sid x hx hcomp key hkey
    rwa [hp] at hold

theorem step_brought {e : Event κ} (hinv : Inv checksum vpath good s) (h : Brought checksum vpath s)
    (hs : step checksum vpath s e = some s') : Brought checksum vpath s' := by
  cases e with
  | missingFiles sid mid task =>
    obtain ⟨-, rfl⟩ := steps_of_step hs
    exact h.update (fun _ _ => rfl) fun _ _ _ => .inr trivial
  | prepareDir sid files =>
    obtain ⟨x, needed, hx, -, -, hperm, rfl⟩ := steps_of_step hs
    refine h.update (fun _ _ => rfl) fun _ key hkey => .inr (.inl ?_)
    rw [(hperm.map _).mem_iff, newFiles_keys]
    exact bundle_brings hkey _
  | nextFile sid => exact nextFile_brought hinv h hs
  | createFile sid ok => exact createFile_brought h hs
  | publish sid =>
    obtain ⟨x, needed, todo, u, temps, hx, hp, -, rfl⟩ := steps_of_step hs
    refine h.update (fun _ _ => rfl) fun hcomp key hkey => ?_
    have hold := h sid x hx hcomp key hkey
    rwa [hp] at hold
  | processTempFiles sid stored =>
    obtain ⟨x, needed, temps, hx, hp, rfl⟩ := steps_of_step hs
    refine h.store hx _ _ fun key _ hcar => ?_
    split
    · next hle =>
      rw [hp] at hcar
      rw [List.take_of_length_le hle]
      rcases hcar with hin | hin
      · cases hin
      · exact .inl hin
    · exact .inr trivial
  | compile sid =>
    obtain ⟨x, hx, hp, rfl⟩ := steps_of_step hs
    refine h.store hx [] .compiling fun key _ hcar => ?_
    rw [hp] at hcar
    exact hcar.elim
  | sessionComplete sid =>
    obtain ⟨x, hx, rfl⟩ := steps_of_step hs
    exact h.update (fun sid' hne => Function.update_of_ne hne _ _) fun hcomp => by cases hcomp

end Brought

/-! ## Includes resolved on the server -/

/-- The first directory in which the file is there. -/
def resolve (vpath : Key → Path) (there : Path → Bool) (dirs : List String) (name : String) : Option String :=
  dirs.find? fun dir => there (vpath (dir, name))

/-- The session sees a file at the path. -/
def HeaderRepository.visible (r : HeaderRepository κ Path) (mid : MachineId) (sid : SessionId) (path : Path) : Bool :=
  (r.mapped mid sid path).isSome

omit [DecidableEq κ] [DecidableEq Path] in
/-- A compiling session sees whatever its task has a key for. -/
theorem visible_of_key {good : κ → Nat → Prop} (hinv : Inv checksum vpath good s) (hb : Brought checksum vpath s)
    {sid : SessionId} {x : Session κ} (hx : s.sessions sid = some x) (hp : x.phase = .compiling)
    (hlive : x.completed = false) {key : Key} (hkey : key ∈ x.task.keys) :
    s.repo.visible x.machine sid (vpath key) = true := by
  unfold HeaderRepository.visible
  by_cases hlisted : ∃ c, (key, c) ∈ x.task.filelist checksum
  · obtain ⟨c, hc⟩ := hlisted
    obtain ⟨f, hf, -⟩ := hinv.serves hx hp hlive hc
    rw [hf, Option.isSome_some]
  · rcases hb sid x hx hlive key ⟨hkey, fun c hc => hlisted ⟨c, hc⟩⟩ with ⟨f, hf⟩ | hcar
    · rw [HeaderRepository.mapped, hf, Option.orElse_some, Option.isSome_some]
    · rw [hp] at hcar
      exact hcar.elim

/-- `client sid` are the files there were on the client when the session was scanned, `dirs sid` its `include_dirs`, and
`names sid` the names of the includes which the scan looked for in these. The scan lists only files that are there, and
each file it found, if maybe under another name. When the session compiles, what is shared under the name of an include
in a directory before the one the scan found it in was still there. -/
def StillThere (vpath : Key → Path) (client : SessionId → Path → Bool)
    (dirs names : SessionId → List String) (s : State κ Path) : Event κ → Prop
  | .missingFiles sid _ task => (task.headers.map (·.1)).Nodup ∧ (∀ key ∈ task.keys, client sid (vpath key)) ∧
    ∀ name ∈ names sid, ∀ dir, resolve vpath (client sid) (dirs sid) name = some dir →
      ∃ key ∈ task.keys, vpath key = vpath (dir, name)
  | .compile sid => ∀ x, s.sessions sid = some x → ∀ name ∈ names sid, ∀ dir,
    resolve vpath (client sid) (dirs sid) name = some dir → ∀ dir' ∈ (dirs sid).takeWhile (· ≠ dir),
      s.repo.globalMap x.machine (vpath (dir', name)) ≠ none → client sid (vpath (dir', name))
  | _ => True

variable {client : SessionId → Path → Bool} {dirs names : SessionId → List String}

omit [DecidableEq κ] [DecidableEq Path] in
theorem StillThere.harmless {e : Event κ} (he : StillThere vpath client dirs names s e) :
    Harmless checksum vpath (fun _ _ => True) s e := by
  cases e with
  | missingFiles sid mid task =>
    exact ⟨fun _ _ _ => filelist_unique he.1, fun missing key content hmem =>
      ⟨bundle_keys hmem, fun _ _ _ _ => trivial⟩⟩
  | createFile sid ok => exact fun _ _ _ _ _ _ _ _ _ => trivial
  | _ => trivial

/-- A session keeps its task. -/
theorem step_task {e : Event κ} (hs : step checksum vpath s e = some s') {sid : SessionId} {x' : Session κ}
    (hx' : s'.sessions sid = some x') :
    (∃ x, s.sessions sid = some x ∧ x.task = x'.task) ∨ ∃ mid, e = .missingFiles sid mid x'.task := by
  obtain ⟨sid₀, y, hsessions, hmoves⟩ := step_moves hs
  rw [hsessions] at hx'
  rcases update_cases hx' with ⟨rfl, rfl⟩ | ⟨-, hx⟩
  · rcases hmoves with ⟨mid, task, rfl, rfl⟩ | ⟨x, hx, htask, -⟩
    · exact .inr ⟨mid, rfl⟩
    · exact .inl ⟨x, hx, htask.symm⟩
  · exact .inl ⟨x', hx, rfl⟩

/-- The maps are in order, and the sessions' files are those their scans found on the client. -/
structure OnClient (checksum : κ → Nat) (vpath : Key → Path) (client : SessionId → Path → Bool)
    (dirs names : SessionId → List String) (s : State κ Path) : Prop where
  inv : Inv checksum vpath (fun _ _ => True) s
  brought : Brought checksum vpath s
  keys : ∀ sid x, s.sessions sid = some x → ∀ key ∈ x.task.keys, client sid (vpath key)
  found : ∀ sid x, s.sessions sid = some x → ∀ name ∈ names sid, ∀ dir,
    resolve vpath (client sid) (dirs sid) name = some dir → ∃ key ∈ x.task.keys, vpath key = vpath (dir, name)

theorem step_onClient {e : Event κ} (h : OnClient checksum vpath client dirs names s)
    (he : StillThere vpath client dirs names s e) (hs : step checksum vpath s e = some s') :
    OnClient checksum vpath client dirs names s' := by
  refine ⟨(step_inv h.inv he.harmless hs).inv, step_brought h.inv h.brought hs, fun sid x' hx' => ?_,
    fun sid x' hx' => ?_⟩
  · rcases step_task hs hx' with ⟨x, hx, htask⟩ | ⟨mid, rfl⟩
    · rw [← htask]
      exact h.keys sid x hx
    · exact he.2.1
  · rcases step_task hs hx' with ⟨x, hx, htask⟩ | ⟨mid, rfl⟩
    · rw [← htask]
      exact h.found sid x hx
    · exact he.2.2

omit [DecidableEq κ] [DecidableEq Path] in
/-- What a session sees is its own, or shared. -/
theorem visible_cases {r : HeaderRepository κ Path} {mid : MachineId} {sid : SessionId} {path : Path}
    (h : r.visible mid sid path = true) : (∃ f, r.tempMap sid path = some f) ∨ r.globalMap mid path ≠ none := by
  unfold HeaderRepository.visible HeaderRepository.mapped at h
  cases htemp : r.tempMap sid path with
  | some f => exact .inl ⟨f, rfl⟩
  | none =>
    rw [htemp] at h
    exact .inr (by simpa [Option.isSome_iff_ne_none] using h)

/-- **The server resolves an include as the client did.** In every run that meets `StillThere`, for a session that
begins to compile and every include its scan looked for: the first of the session's directories in which the file
existed on the client is also the first in which the session sees the file on the server. -/
theorem remote_includes_resolve {es : List (Event κ)}
    (hm : Meets (step checksum vpath) (StillThere vpath client dirs names) {} es)
    (hr : run (step checksum vpath) {} es = some s) {sid : SessionId}
    (hstill : StillThere vpath client dirs names s (.compile sid))
    (hstep : step checksum vpath s (.compile sid) = some s') {session : Session κ}
    (hx : s'.sessions sid = some session) (hlive : session.completed = false) {dir name : String}
    (hname : name ∈ names sid) (hclient : resolve vpath (client sid) (dirs sid) name = some dir) :
    resolve vpath (s'.repo.visible session.machine sid) (dirs sid) name = some dir := by
  have hon : OnClient checksum vpath client dirs names s :=
    run_inv_of_meets (step checksum vpath) (fun t e t' ht he h => step_onClient ht he h) es {} s
      ⟨init_inv, fun _ _ h => by (cases h), fun _ _ h => by (cases h), fun _ _ h => by (cases h)⟩ hm hr
  have hon' := step_onClient hon hstill hstep
  obtain ⟨x, hx₀, -, rfl⟩ := steps_of_step hstep
  obtain rfl : session = { x with phase := .compiling } := by
    rcases update_cases hx with ⟨-, rfl⟩ | ⟨hne, -⟩
    · rfl
    · exact absurd rfl hne
  have hfind := hclient
  unfold resolve at hfind ⊢
  rw [List.find?_eq_some_iff_append] at hfind ⊢
  obtain ⟨hthere, before, after, hdirs, hbefore⟩ := hfind
  refine ⟨?_, before, after, hdirs, fun dir' hdir' => ?_⟩
  · obtain ⟨key, hkey, hpath⟩ := hon.found sid x hx₀ name hname dir hclient
    rw [← hpath]
    exact visible_of_key hon'.inv hon'.brought hx rfl hlive hkey
  · -- what is seen there is the session's own, or shared: either way it was on the client
    have hnot := hbefore dir' hdir'
    simp only [Bool.not_eq_eq_eq_not, Bool.not_true] at hnot ⊢
    by_contra hvisible
    have hwas : client sid (vpath (dir', name)) = true := by
      rcases visible_cases (eq_true_of_ne_false hvisible) with ⟨f, hf⟩ | hshared
      · obtain ⟨key, hpath, hright⟩ := (hon.inv.sessions sid x hx₀).temp _ f hf
        rw [← hpath]
        exact hon.keys sid x hx₀ key hright.1
      · refine hstill x hx₀ name hname dir hclient dir' ?_ hshared
        have hne : ∀ d ∈ before, decide (d ≠ dir) = true := by
          intro d hd
          refine decide_eq_true fun heq => ?_
          have hthere' := hbefore d hd
          rw [heq, hthere] at hthere'
          cases hthere'
        rw [hdirs, List.takeWhile_append_of_pos hne]
        exact List.mem_append_left _ hdir'
    rw [hnot] at hwas
    cases hwas

end Paths

/-! ## One header, two keys -/

/-- A source that includes one header, found in the given directory under the given name. -/
def headerAt (dir name : String) (content : List Nat) : Task (List Nat) where
  headerInfo := [(dir, [(name, false, content)])]
  source := "a.cpp"
  sourceContent := [0]

/-- A session that finds the shared header missing, sends it, and compiles. -/
def sends (sid : SessionId) (dir name : String) (content : List Nat) : List (Event (List Nat)) :=
  [.missingFiles sid 0 (headerAt dir name content), .prepareDir sid [((dir, name), content), (("", "a.cpp"), [0])],
    .nextFile sid, .createFile sid true, .publish sid, .nextFile sid, .processTempFiles sid 1]

/-- A session that finds nothing missing. -/
def finds (sid : SessionId) (dir name : String) (content : List Nat) : List (Event (List Nat)) :=
  [.missingFiles sid 0 (headerAt dir name content), .prepareDir sid [(("", "a.cpp"), [0])], .nextFile sid,
    .processTempFiles sid 1]

theorem headerAt_nodup (dir name : String) (content : List Nat) :
    ((headerAt dir name content).headers.map (·.1)).Nodup := by
  simp [headerAt, Task.headers]

theorem headerAt_oneContent {s : State (List Nat) String} {sid : SessionId} {dir name : String} {content : List Nat}
    (hpath : joinPath (dir, name) ≠ "a.cpp") :
    OneContent adler32 joinPath s (.missingFiles sid 0 (headerAt dir name content)) := by
  refine ⟨headerAt_nodup dir name content, fun p hp key c hkey hmem => ?_⟩
  obtain ⟨rfl, rfl⟩ : key = (dir, name) ∧ c = adler32 content := by
    simpa [headerAt, Task.filelist, Task.headers] using hmem
  rcases (by simpa [headerAt, Task.contents, Task.headers] using hp :
    p = ((dir, name), content) ∨ p = (("", "a.cpp"), [0])) with rfl | rfl
  · rfl
  · exact absurd hkey hpath

/-- `inc\sub\h.h` is shared as `sub\h.h` of `inc`, and once more, unchanged, as `h.h` of `inc\sub`. -/
theorem aliases_see_listed_content_unchanged :
    ∃ s f, run (step adler32 joinPath) {} (sends 1 "inc" "sub\\h.h" [1] ++ sends 2 "inc\\sub" "h.h" [1] ++ [.compile 2]) =
        some s ∧ s.repo.mapped 0 2 (joinPath ("inc\\sub", "h.h")) = some f ∧ adler32 f.content = adler32 [1] := by
  have hm : Meets (step adler32 joinPath) (OneContent adler32 joinPath) {}
      (sends 1 "inc" "sub\\h.h" [1] ++ sends 2 "inc\\sub" "h.h" [1] ++ [.compile 2]) := by
    refine ⟨headerAt_oneContent (by decide), fun s₁ h₁ => ?_⟩
    cases h₁
    refine ⟨trivial, fun s₂ h₂ => ?_⟩
    cases h₂
    refine ⟨trivial, fun s₃ h₃ => ?_⟩
    cases h₃
    refine ⟨fun x u hx hu _ f hf => ?_, fun s₄ h₄ => ?_⟩
    · cases hx
      cases hu
      cases hf
    cases h₄
    refine ⟨trivial, fun s₅ h₅ => ?_⟩
    cases h₅
    refine ⟨trivial, fun s₆ h₆ => ?_⟩
    cases h₆
    refine ⟨trivial, fun s₇ h₇ => ?_⟩
    cases h₇
    refine ⟨headerAt_oneContent (by decide), fun s₈ h₈ => ?_⟩
    cases h₈
    refine ⟨trivial, fun s₉ h₉ => ?_⟩
    cases h₉
    refine ⟨trivial, fun s₁₀ h₁₀ => ?_⟩
    cases h₁₀
    refine ⟨fun x u hx hu _ f hf => ?_, fun s₁₁ h₁₁ => ⟨trivial, fun _ _ => ⟨trivial, fun _ _ => ⟨trivial, fun _ _ =>
      ⟨trivial, fun _ _ => trivial⟩⟩⟩⟩⟩
    cases hx
    cases hu
    have hold : f.content = [1] := by
      cases hf
      rfl
    rw [hold]
  obtain ⟨s, hs⟩ : ∃ s, run (step adler32 joinPath) {}
      (sends 1 "inc" "sub\\h.h" [1] ++ sends 2 "inc\\sub" "h.h" [1] ++ [.compile 2]) = some s := ⟨_, rfl⟩
  have hsees : ∀ x, s.sessions 2 = some x → x.phase = .compiling → x.completed = false →
      (("inc\\sub", "h.h"), adler32 [1]) ∈ x.task.filelist adler32 →
      ∃ f, s.repo.mapped x.machine 2 (joinPath ("inc\\sub", "h.h")) = some f ∧ adler32 f.content = adler32 [1] :=
    fun _ hx hp hlive hkey => aliases_see_listed_content hm hs hx hp hlive hkey
  cases hs
  obtain ⟨f, hf, hsum⟩ := hsees _ rfl rfl rfl (by decide)
  exact ⟨_, f, rfl, hf, hsum⟩

/-- The header changes, and changes back: a session that lists the first version finds the second. -/
theorem alias_sees_other_content :
    ∃ s x f, run (step adler32 joinPath) {} (sends 1 "inc" "sub\\h.h" [1] ++ sends 2 "inc\\sub" "h.h" [2] ++
        finds 3 "inc" "sub\\h.h" [1] ++ [.compile 3]) = some s ∧
      s.sessions 3 = some x ∧ x.phase = .compiling ∧ x.completed = false ∧
      (("inc", "sub\\h.h"), adler32 [1]) ∈ x.task.filelist adler32 ∧
      s.repo.mapped 0 3 (joinPath ("inc", "sub\\h.h")) = some f ∧ adler32 f.content ≠ adler32 [1] :=
  ⟨_, _, _, rfl, rfl, rfl, rfl, by decide, rfl, by decide⟩

/-! ## A header that was removed -/

/-- `b\sub\h.h`, which the scan lists once, as `sub\h.h` of `b`, is found as `h.h` in the third of three directories. -/
theorem remote_includes_resolve_third :
    ∃ s s', run (step adler32 joinPath) {} (sends 1 "a" "g.h" [1] ++ sends 2 "b" "sub\\h.h" [2]) = some s ∧
      step adler32 joinPath s (.compile 2) = some s' ∧
      resolve joinPath (s'.repo.visible 0 2) ["a", "b", "b\\sub"] "h.h" = some "b\\sub" := by
  let client : SessionId → String → Bool := fun _ path => path ∈ ["a\\g.h", "b\\sub\\h.h", "a.cpp"]
  let dirs : SessionId → List String := fun _ => ["a", "b", "b\\sub"]
  let names : SessionId → List String := fun sid => if sid = 1 then ["g.h"] else ["sub\\h.h", "h.h"]
  have hm : Meets (step adler32 joinPath) (StillThere joinPath client dirs names) {}
      (sends 1 "a" "g.h" [1] ++ sends 2 "b" "sub\\h.h" [2]) := by
    refine meets_of_forall _ fun s e he => ?_
    simp only [sends, List.cons_append, List.nil_append, List.mem_cons, List.not_mem_nil, or_false] at he
    rcases he with rfl | rfl | rfl | rfl | rfl | rfl | rfl | rfl | rfl | rfl | rfl | rfl | rfl | rfl <;>
      trivial
  obtain ⟨s, hs⟩ : ∃ s, run (step adler32 joinPath) {} (sends 1 "a" "g.h" [1] ++ sends 2 "b" "sub\\h.h" [2]) = some s :=
    ⟨_, rfl⟩
  have hresolve : StillThere joinPath client dirs names s (.compile 2) →
      ∀ s', step adler32 joinPath s (.compile 2) = some s' → ∀ x, s'.sessions 2 = some x → x.completed = false →
      resolve joinPath (client 2) (dirs 2) "h.h" = some "b\\sub" →
      resolve joinPath (s'.repo.visible x.machine 2) (dirs 2) "h.h" = some "b\\sub" :=
    fun hstill _ hstep _ hx hlive hclient => remote_includes_resolve hm hs hstill hstep hx hlive (by decide) hclient
  cases hs
  refine ⟨_, _, rfl, rfl, hresolve ?_ _ rfl _ rfl rfl (by decide)⟩
  -- nobody shares anything under the names of the second session in `a`
  intro x hx
  cases hx
  decide

/-- `a\h.h`, which an earlier session shared, has been removed: the client finds the header in `b`, the server in
`a`. -/
theorem remote_include_finds_removed :
    ∃ s s' x, run (step adler32 joinPath) {} (sends 1 "a" "h.h" [1] ++ sends 2 "b" "h.h" [2]) = some s ∧
      step adler32 joinPath s (.compile 2) = some s' ∧ s'.sessions 2 = some x ∧ x.completed = false ∧
      (("b", "h.h"), adler32 [2]) ∈ x.task.filelist adler32 ∧
      resolve joinPath (fun path => path ∈ ["b\\h.h", "a.cpp"]) ["a", "b"] "h.h" = some "b" ∧
      resolve joinPath (s'.repo.visible 0 2) ["a", "b"] "h.h" = some "a" :=
  ⟨_, _, _, rfl, rfl, rfl, rfl, by decide, by decide, by decide⟩

end BuildPal.Headers
