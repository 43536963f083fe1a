import VueSetup.Batch.Run
import VueSetup.Proofs.Batch.Select
import VueSetup.Proofs.Batch.Tree
import VueSetup.Proofs.Transform.Outcome

/-!
# VueSetup.Proofs.Batch.Schedule

A run with a task for each file, the tasks taking turns in any order.

A task reads its file, transforms and writes it, tells the report, and counts the file; each of
these is one turn. The tasks share the tree, the report and the counters. A **schedule** says whose
turn is next, again and again.

What holds after every turn is `Progress.Tracks`: each task has seen its file as it was at the start
of the run, and what is shared is what the tasks put there, in the order of the paths. The step is
`Progress.Tracks.turn`, the run `Progress.Tracks.run`. Once every task has had its four turns,
nothing of the schedule is left in the outcome, which is that of the run one file after the other.
-/

namespace VueSetup

open Transformation (eq_ok_of_toOption)

/-! ### A report of one name

A run has one transformation, so its report is told of changed files by one name only, and is known
by a number. -/

namespace Report

/-- The report of files that were all counted under one name. -/
def tally (name : String) (n : Nat) : Report :=
  ⟨if n = 0 then [] else [(name, n)]⟩

variable {name : String} {n : Nat}

/-- A report that was told nothing. -/
@[simp] theorem tally_zero : tally name 0 = {} := rfl

/-- One more file. -/
@[simp] theorem record_tally : (tally name n).record name = tally name (n + 1) := by
  cases n with
  | zero => rfl
  | succ n => simp [tally, record, bump]

/-- The count of the name is the number of files. -/
@[simp] theorem count_tally : (tally name n).count name = n := by
  cases n with
  | zero => rfl
  | succ n => simp [tally, count]

/-- The total is the same number, because there is no other name. -/
@[simp] theorem total_tally : (tally name n).total = n := by
  cases n with
  | zero => rfl
  | succ n => simp [tally, total]

end Report

namespace Batch

/-! ### What a status stands for

The status of a file decides everything that comes after its transformation: what is written, what
is told, and in which of the three ways the file is counted. There is none where the transformation
breaks off (`Breaks`). -/

namespace Status

def isChanged : Status → Bool
  | .changed _ _ => true
  | _ => false

def isUnchanged : Status → Bool
  | .unchanged => true
  | _ => false

def isFailed : Status → Bool
  | .failed _ => true
  | _ => false

/-- The options that were dropped from a file, if there are any. -/
def dropped? : Status → Option (List String)
  | .changed _ dropped => if dropped.isEmpty then none else some dropped
  | _ => none

/-- Why a file could not be transformed. -/
def failure? : Status → Option String
  | .failed message => some message
  | _ => none

/-- Put a transformed file back if the run writes. -/
def store (s : Settings) (path : String) (t : Tree) : Status → Tree
  | .changed code _ => if s.write then t.write path code else t
  | _ => t

end Status

/-- What becomes of a file of a tree, if its transformation does not break off. -/
def statusIn (s : Settings) (options : Options) (t : Tree) (path : String) : Option Status :=
  processEntry s.transformation options path ((t.find? path).map (·.2))

/-- The path leads to a text whose transformation breaks off. -/
def Breaks (s : Settings) (options : Options) (t : Tree) (path : String) : Prop :=
  ∃ names source, t.find? path = some (names, .file (.text source)) ∧
    s.transformation.runFile options path source = .error (.script .brokenSpan)

/-- Breaking off is the one way to have no status; every other error is one. -/
theorem statusIn_eq_none_iff {s : Settings} {options : Options} {t : Tree} {path : String} :
    statusIn s options t path = none ↔ Breaks s options t path := by
  unfold statusIn Breaks
  cases hfound : t.find? path with
  | none => simp [processEntry]
  | some found =>
    obtain ⟨names, entry⟩ := found
    rcases entry with (source | bytes) | _
    · cases hrun : s.transformation.runFile options path source with
      | ok outcome => simp [processEntry, hrun]
      | error e =>
        rcases e with d | (_ | _)
        · simp [processEntry, hrun]
        · simp [processEntry, hrun]
        · exact ⟨fun _ => ⟨names, source, rfl, hrun⟩, fun _ => by simp [processEntry, hrun]⟩
    · simp [processEntry]
    · simp [processEntry]

theorem exists_statusIn {s : Settings} {options : Options} {t : Tree} {path : String}
    (h : ¬ Breaks s options t path) : ∃ status, statusIn s options t path = some status :=
  Option.ne_none_iff_exists'.mp (mt statusIn_eq_none_iff.mp h)

/-- The options that were dropped, by path. -/
def droppedOptions (results : List (String × Status)) : List (String × List String) :=
  results.filterMap fun result => result.2.dropped?.map (result.1, ·)

/-- The files that could not be transformed. -/
def failures (results : List (String × Status)) : List (String × String) :=
  results.filterMap fun result => result.2.failure?.map (result.1, ·)

/-- Options are listed only for files that dropped some. -/
@[simp] theorem droppedOptions_cons (path : String) (status : Status)
    (rest : List (String × Status)) :
    droppedOptions ((path, status) :: rest) =
      (status.dropped?.map (path, ·)).toList ++ droppedOptions rest := by
  rw [droppedOptions, List.filterMap_cons]
  cases status.dropped? <;> rfl

/-- Messages are listed only for files that failed. -/
@[simp] theorem failures_cons (path : String) (status : Status) (rest : List (String × Status)) :
    failures ((path, status) :: rest) =
      (status.failure?.map (path, ·)).toList ++ failures rest := by
  rw [failures, List.filterMap_cons]
  cases status.failure? <;> rfl

/-- What a run leaves behind that did not break off: it counted its files and has their results in
order. -/
def conclude (s : Settings) (t : Tree) (results : List (String × Status)) (summary : Summary) :
    Outcome :=
  match results with
  | [] => ⟨0, "", fun _ => "No .vue files found matching the patterns\n", t⟩
  | results =>
    let out := String.join (results.map (printed s))
    let err := String.join (results.map (announced s))
    let exitCode := if summary.failed > 0 || (s.check && summary.changed > 0) then 1 else 0
    match s.format with
    | .json => ⟨exitCode, out ++ summary.toJson.pretty ++ "\n", fun _ => err, t⟩
    | .text => ⟨exitCode, out, fun elapsed => err ++ summary.toText s elapsed, t⟩

/-- What the files print comes first, in their order. -/
theorem conclude_out (s : Settings) (t : Tree) (results : List (String × Status))
    (summary : Summary) :
    ∃ rest, (conclude s t results summary).out = String.join (results.map (printed s)) ++ rest := by
  cases results with
  | nil => exact ⟨"", rfl⟩
  | cons result rest =>
    cases hformat : s.format with
    | text => exact ⟨"", by simp [conclude, hformat]⟩
    | json => exact ⟨summary.toJson.pretty ++ "\n", by
        simp [conclude, hformat, String.append_assoc]⟩

/-- Telling the results changes no file. -/
theorem conclude_tree (s : Settings) (t : Tree) (results : List (String × Status))
    (summary : Summary) : (conclude s t results summary).tree = t := by
  cases results with
  | nil => rfl
  | cons result rest => cases hformat : s.format <;> simp [conclude, hformat]

/-- The exit code is that of failed files, or of a check that found changes. -/
theorem conclude_exitCode (s : Settings) (t : Tree) {results : List (String × Status)}
    {summary : Summary} (h : results = [] → summary.failed = 0 ∧ summary.changed = 0) :
    (conclude s t results summary).exitCode = 1 ↔
      0 < summary.failed ∨ (s.check = true ∧ 0 < summary.changed) := by
  cases results with
  | nil => simp [conclude, h rfl]
  | cons result rest => cases hformat : s.format <;> simp [conclude, hformat] <;> grind

/-! ### Tasks

The turns of a task are cut where the real task can be interrupted by another: behind reading,
behind writing, behind telling the report and behind counting. Within a turn nothing else happens.
-/

/-- How far the task of a file has come. -/
inductive Stage where
  | waiting
  /-- The file was read. -/
  | loaded (entry : Option Entry)
  /-- The file was transformed, and written if the run writes. -/
  | stored (status : Status)
  /-- The report was told. -/
  | recorded (status : Status)
  /-- The file was counted, which ends the task. -/
  | counted (status : Status)
  /-- The transformation broke off, which ends the task. -/
  | broken

/-- What all tasks share. -/
structure Shared where
  tree : Tree
  report : Report := {}
  changed : Nat := 0
  unchanged : Nat := 0
  failed : Nat := 0

namespace Shared

/-- Tell the report of a changed file. -/
def record (s : Settings) (shared : Shared) : Status → Shared
  | .changed _ _ => { shared with report := shared.report.record s.transformation.name }
  | _ => shared

/-- Count a file. -/
def count (shared : Shared) : Status → Shared
  | .changed _ _ => { shared with changed := shared.changed + 1 }
  | .unchanged => { shared with unchanged := shared.unchanged + 1 }
  | .failed _ => { shared with failed := shared.failed + 1 }

end Shared

namespace Stage

/-- One turn of a task. The file is read from the tree as it is at that moment. -/
def advance (s : Settings) (options : Options) (path : String) (shared : Shared) :
    Stage → Shared × Stage
  | .waiting => (shared, .loaded ((shared.tree.find? path).map (·.2)))
  | .loaded entry =>
    match processEntry s.transformation options path entry with
    | some status => ({ shared with tree := status.store s path shared.tree }, .stored status)
    | none => (shared, .broken)
  | .stored status => (shared.record s status, .recorded status)
  | .recorded status => (shared.count status, .counted status)
  | .counted status => (shared, .counted status)
  | .broken => (shared, .broken)

/-- How the task of a file ends. -/
def ended : Option Status → Stage
  | some status => .counted status
  | none => .broken

/-- The task broke off. -/
def isBroken : Stage → Bool
  | .broken => true
  | _ => false

/-- The status of a file that was written, if the run writes. -/
def written? : Stage → Option Status
  | .waiting | .loaded _ | .broken => none
  | .stored status | .recorded status | .counted status => some status

/-- The status of a file that the report was told of. -/
def recorded? : Stage → Option Status
  | .recorded status | .counted status => some status
  | _ => none

/-- The status of a file that was counted. -/
def counted? : Stage → Option Status
  | .counted status => some status
  | _ => none

/-- How many turns a task has had. One that has ended needs no more, and counts as having had
all. -/
def turns : Stage → Nat
  | .waiting => 0
  | .loaded _ => 1
  | .stored _ => 2
  | .recorded _ => 3
  | .counted _ | .broken => 4

/-- What a task has put in the tree. -/
def store (s : Settings) (path : String) (t : Tree) (stage : Stage) : Tree :=
  match stage.written? with
  | some status => status.store s path t
  | none => t

/-- A task saw its file as it is in the given tree. -/
def Faithful (s : Settings) (options : Options) (t : Tree) (path : String) : Stage → Prop
  | .waiting => True
  | .loaded entry => entry = (t.find? path).map (·.2)
  | .stored status | .recorded status | .counted status =>
    statusIn s options t path = some status
  | .broken => statusIn s options t path = none

/-- A task that ended has written what its status says. -/
@[simp] theorem written?_ended (status : Option Status) : (ended status).written? = status := by
  cases status <;> rfl

/-- It has told the report. -/
@[simp] theorem recorded?_ended (status : Option Status) : (ended status).recorded? = status := by
  cases status <;> rfl

/-- It has counted its file. -/
@[simp] theorem counted?_ended (status : Option Status) : (ended status).counted? = status := by
  cases status <;> rfl

/-- It broke off if there is no status. -/
@[simp] theorem isBroken_ended (status : Option Status) :
    (ended status).isBroken = status.isNone := by
  cases status <;> rfl

end Stage

/-- What the tasks share, and how far each of them has come. -/
structure Progress where
  shared : Shared
  tasks : List (String × Stage)

namespace Progress

/-- The start of a run over files. -/
def start (t : Tree) (paths : List String) : Progress :=
  ⟨{ tree := t }, paths.map (·, .waiting)⟩

/-- One task has its turn. -/
def turn (s : Settings) (options : Options) (p : Progress) (i : Nat) : Progress :=
  match p.tasks[i]? with
  | none => p
  | some (path, stage) =>
    let (shared, stage) := stage.advance s options path p.shared
    ⟨shared, p.tasks.set i (path, stage)⟩

/-- The tasks take turns as a schedule says. -/
def run (s : Settings) (options : Options) (p : Progress) (schedule : List Nat) : Progress :=
  schedule.foldl (turn s options) p

/-- The files whose tasks have ended, in the order of the tasks. -/
def results (p : Progress) : List (String × Status) :=
  p.tasks.filterMap fun task => task.2.counted?.map (task.1, ·)

/-- The summary that the counters and the results give. -/
def summary (s : Settings) (p : Progress) : Summary :=
  ⟨s.transformation, p.shared.changed, p.shared.unchanged, p.shared.failed, p.shared.report,
    droppedOptions p.results, failures p.results⟩

/-- What is left behind. A task that broke off takes the run with it, whatever the others did. -/
def outcome (s : Settings) (p : Progress) : Outcome :=
  if p.tasks.any (·.2.isBroken) then .brokenOff p.shared.tree
  else conclude s p.shared.tree p.results (p.summary s)

end Progress

/-! ### What tasks put in the tree

Each task writes through its own path. As long as no two paths lead to the same place, writes are
seen through their own path only, and their order does not matter. -/

section Store

variable {s : Settings} {options : Options} {t : Tree} {path other : String}

/-- A write is not seen through another path. -/
theorem Status.find?_store (status : Status) (h : t.Apart path other) :
    (status.store s path t).find? other = t.find? other := by
  cases status with
  | changed code dropped =>
    by_cases hwrite : s.write
    · simp only [store, hwrite, if_true]
      exact Tree.find?_write h
    · simp [store, hwrite]
  | unchanged => rfl
  | failed message => rfl

/-- Paths lead where they led before. -/
theorem Status.names?_store (status : Status) :
    (status.store s path t).names? other = t.names? other := by
  cases status with
  | changed code dropped => by_cases hwrite : s.write <;> simp [store, hwrite, Tree.names?_write]
  | unchanged => rfl
  | failed message => rfl

/-- Only the place of a changed file is touched. -/
theorem Status.entry?_store (status : Status) {names : List String}
    (h : status.isChanged = true → t.names? path ≠ some names) :
    Tree.entry? (status.store s path t) names = t.entry? names := by
  cases status with
  | changed code dropped =>
    by_cases hwrite : s.write
    · simp only [store, hwrite, if_true]
      exact Tree.entry?_write (h rfl)
    · simp [store, hwrite]
  | unchanged => rfl
  | failed message => rfl

/-- Two files may be written in either order. -/
theorem Status.store_comm (first second : Status) (h : t.Apart path other) :
    second.store s other (first.store s path t) = first.store s path (second.store s other t) := by
  cases first with
  | changed code dropped =>
    cases second with
    | changed code' dropped' =>
      by_cases hwrite : s.write
      · simp only [store, hwrite, if_true]
        exact Tree.write_comm h code code'
      · simp [store, hwrite]
    | unchanged => rfl
    | failed message => rfl
  | unchanged => rfl
  | failed message => rfl

/-- What tasks have put in the tree. -/
def storeAll (s : Settings) (t : Tree) (tasks : List (String × Stage)) : Tree :=
  tasks.foldl (fun t task => task.2.store s task.1 t) t

variable {tasks : List (String × Stage)}

@[simp] theorem storeAll_nil : storeAll s t [] = t := rfl

@[simp] theorem storeAll_cons (task : String × Stage) :
    storeAll s t (task :: tasks) = storeAll s (task.2.store s task.1 t) tasks := rfl

/-- Tasks write one after the other, in the order of the list. -/
theorem storeAll_append (before behind : List (String × Stage)) :
    storeAll s t (before ++ behind) = storeAll s (storeAll s t before) behind := by
  rw [storeAll, List.foldl_append, ← storeAll, ← storeAll]

/-- A task changes no name, however far it has come. -/
theorem Stage.names?_store (stage : Stage) :
    (stage.store s path t).names? other = t.names? other := by
  unfold store
  cases stage.written? with
  | none => rfl
  | some status => exact status.names?_store

/-- Nor do all tasks together. -/
theorem names?_storeAll : (storeAll s t tasks).names? other = t.names? other := by
  induction tasks generalizing t with
  | nil => rfl
  | cons task rest ih => rw [storeAll_cons, ih, Stage.names?_store]

/-- What was apart stays apart. -/
theorem Stage.apart_store (stage : Stage) {a b : String} :
    (stage.store s path t).Apart a b ↔ t.Apart a b := by
  simp only [Tree.Apart, Stage.names?_store]

/-- Whatever the tasks have put there. -/
theorem apart_storeAll {a b : String} : (storeAll s t tasks).Apart a b ↔ t.Apart a b := by
  simp only [Tree.Apart, names?_storeAll]

/-- What no task changed is as it was. -/
theorem entry?_storeAll {names : List String}
    (h : ∀ task ∈ tasks, task.2.written?.any Status.isChanged = true →
      t.names? task.1 ≠ some names) :
    Tree.entry? (storeAll s t tasks) names = t.entry? names := by
  induction tasks generalizing t with
  | nil => rfl
  | cons task rest ih =>
    have hrestKept : ∀ task' ∈ rest, task'.2.written?.any Status.isChanged = true →
        (task.2.store s task.1 t).names? task'.1 ≠ some names := by
      intro task' hmem
      rw [Stage.names?_store]
      exact h task' (List.mem_cons_of_mem _ hmem)
    rw [storeAll_cons, ih hrestKept, Stage.store]
    have hown := h task List.mem_cons_self
    cases hwritten : task.2.written? with
    | none => rfl
    | some status =>
      simp only [hwritten, Option.any_some] at hown
      exact status.entry?_store hown

/-- A path that leads elsewhere does not see what tasks wrote. -/
theorem find?_storeAll
    (h : ∀ task ∈ tasks, task.2.written? = none ∨ t.Apart task.1 path) :
    (storeAll s t tasks).find? path = t.find? path := by
  induction tasks generalizing t with
  | nil => rfl
  | cons task rest ih =>
    have hrestApart : ∀ task' ∈ rest,
        task'.2.written? = none ∨ (task.2.store s task.1 t).Apart task'.1 path := by
      intro task' hmem
      rw [Stage.apart_store]
      exact h task' (List.mem_cons_of_mem _ hmem)
    rw [storeAll_cons, ih hrestApart, Stage.store]
    cases hwritten : task.2.written? with
    | none => rfl
    | some status =>
      have hapart : t.Apart task.1 path := by
        simpa [hwritten] using h task List.mem_cons_self
      exact status.find?_store hapart

/-- What is written through a path that leads elsewhere can be written before the tasks write. -/
theorem store_storeAll (status : Status) (h : ∀ task ∈ tasks, t.Apart path task.1) :
    status.store s path (storeAll s t tasks) = storeAll s (status.store s path t) tasks := by
  induction tasks generalizing t with
  | nil => rfl
  | cons task rest ih =>
    have hrestApart : ∀ task' ∈ rest, (task.2.store s task.1 t).Apart path task'.1 := by
      intro task' hmem
      rw [Stage.apart_store]
      exact h task' (List.mem_cons_of_mem _ hmem)
    rw [storeAll_cons, storeAll_cons, ih hrestApart]
    unfold Stage.store
    cases task.2.written? with
    | none => rfl
    | some status' =>
      exact congrArg (storeAll s · rest) (status.store_comm status'
        (h task List.mem_cons_self)).symm

end Store

/-! ### One turn of a task

One lemma for each thing that is shared, and one for what the task has seen. The counters are stated
as sums, so that a turn moves one from the one side to the other: a task that is counted already
adds nothing. -/

namespace Stage

variable {s : Settings} {options : Options} {t : Tree} {path : String} {shared : Shared}
  {stage : Stage}

/-- A turn writes at most the task's own file, and does so once. -/
theorem tree_advance :
    (stage.advance s options path shared).1.tree = shared.tree ∧
        (stage.advance s options path shared).2.written? = stage.written? ∨
      ∃ status : Status, stage.written? = none ∧
        (stage.advance s options path shared).2.written? = some status ∧
        (stage.advance s options path shared).1.tree = status.store s path shared.tree := by
  cases stage with
  | loaded entry =>
    rw [advance]
    cases processEntry s.transformation options path entry with
    | none => exact .inl ⟨rfl, rfl⟩
    | some status => exact .inr ⟨_, rfl, rfl, rfl⟩
  | stored status => cases status <;> exact .inl ⟨rfl, rfl⟩
  | recorded status => cases status <;> exact .inl ⟨rfl, rfl⟩
  | waiting | counted _ | broken => exact .inl ⟨rfl, rfl⟩

/-- A task sees its file when it reads it, and knows it from then on. -/
theorem faithful_advance (hseen : stage = .waiting → shared.tree.find? path = t.find? path)
    (hfaithful : stage.Faithful s options t path) :
    (stage.advance s options path shared).2.Faithful s options t path := by
  cases stage with
  | waiting => simp [advance, Faithful, hseen rfl]
  | loaded entry =>
    obtain rfl := hfaithful
    rw [advance]
    cases hstatus : processEntry s.transformation options path _ with
    | none => exact hstatus
    | some status => exact hstatus
  | stored _ | recorded _ | counted _ | broken => exact hfaithful

/-- The report is told in one turn, and only of a changed file. -/
theorem report_advance {n : Nat}
    (h : shared.report = Report.tally s.transformation.name
      (n + if stage.recorded?.any Status.isChanged then 1 else 0)) :
    (stage.advance s options path shared).1.report = Report.tally s.transformation.name
      (n + if (stage.advance s options path shared).2.recorded?.any Status.isChanged then 1
        else 0) := by
  cases stage with
  | loaded entry =>
    rw [advance]
    cases processEntry s.transformation options path entry <;> exact h
  | stored status =>
    cases status with
    | changed code dropped => simp_all [advance, Shared.record, recorded?, Status.isChanged]
    | unchanged => exact h
    | failed message => exact h
  | recorded status => cases status <;> exact h
  | waiting | counted _ | broken => exact h

/-- The counter of changed files moves with the turn that counts. -/
theorem changed_advance :
    (stage.advance s options path shared).1.changed +
        (if stage.counted?.any Status.isChanged then 1 else 0) =
      shared.changed +
        if (stage.advance s options path shared).2.counted?.any Status.isChanged then 1 else 0 := by
  cases stage with
  | loaded entry =>
    rw [advance]
    cases processEntry s.transformation options path entry <;> rfl
  | stored status => cases status <;> rfl
  | recorded status => cases status <;> rfl
  | waiting | counted _ | broken => rfl

/-- The same of the counter of unchanged files. -/
theorem unchanged_advance :
    (stage.advance s options path shared).1.unchanged +
        (if stage.counted?.any Status.isUnchanged then 1 else 0) =
      shared.unchanged +
        if (stage.advance s options path shared).2.counted?.any Status.isUnchanged then 1
        else 0 := by
  cases stage with
  | loaded entry =>
    rw [advance]
    cases processEntry s.transformation options path entry <;> rfl
  | stored status => cases status <;> rfl
  | recorded status => cases status <;> rfl
  | waiting | counted _ | broken => rfl

/-- The same of the counter of failed files. -/
theorem failed_advance :
    (stage.advance s options path shared).1.failed +
        (if stage.counted?.any Status.isFailed then 1 else 0) =
      shared.failed +
        if (stage.advance s options path shared).2.counted?.any Status.isFailed then 1 else 0 := by
  cases stage with
  | loaded entry =>
    rw [advance]
    cases processEntry s.transformation options path entry <;> rfl
  | stored status => cases status <;> rfl
  | recorded status => cases status <;> rfl
  | waiting | counted _ | broken => rfl

/-- A turn moves a task on until it has ended. One that breaks off skips the turns that are left. -/
theorem turns_advance :
    min 4 (stage.turns + 1) ≤ (stage.advance s options path shared).2.turns := by
  cases stage with
  | loaded entry =>
    rw [advance]
    cases processEntry s.transformation options path entry <;> simp [turns]
  | _ => simp [advance, turns]

/-- The task of a file whose transformation breaks off comes no further than that. -/
theorem eq_broken (hbreaks : Breaks s options t path) (hturns : 2 ≤ stage.turns)
    (hfaithful : stage.Faithful s options t path) : stage = .broken := by
  have hnone := statusIn_eq_none_iff.mpr hbreaks
  cases stage with
  | stored status | recorded status | counted status =>
    rw [show statusIn s options t path = some status from hfaithful] at hnone
    cases hnone
  | broken => rfl
  | waiting | loaded _ => simp [turns] at hturns

/-- A task that had all its turns has ended, with what becomes of its file. -/
theorem eq_ended (hturns : 4 ≤ stage.turns) (hfaithful : stage.Faithful s options t path) :
    stage = ended (statusIn s options t path) := by
  cases stage with
  | counted status => rw [show statusIn s options t path = some status from hfaithful, ended]
  | broken => rw [show statusIn s options t path = none from hfaithful, ended]
  | waiting | loaded _ | stored _ | recorded _ => simp [turns] at hturns

end Stage

/-! ### After every turn

The invariant of the run. It names the tree of the start, not the one that is shared, which is why
the order of the turns drops out of it: a task that reads late sees its file as it was, since the
others have written elsewhere. -/

namespace Progress

/-- What holds after every turn: each task saw its file as it was in the tree `t`, and what is
shared is what the tasks have put there. -/
structure Tracks (s : Settings) (options : Options) (t : Tree) (paths : List String)
    (p : Progress) : Prop where
  paths_eq : p.tasks.map Prod.fst = paths
  faithful : ∀ task ∈ p.tasks, task.2.Faithful s options t task.1
  tree_eq : p.shared.tree = storeAll s t p.tasks
  report_eq : p.shared.report = Report.tally s.transformation.name
    (p.tasks.countP fun task => task.2.recorded?.any Status.isChanged)
  changed_eq : p.shared.changed = p.tasks.countP fun task => task.2.counted?.any Status.isChanged
  unchanged_eq :
    p.shared.unchanged = p.tasks.countP fun task => task.2.counted?.any Status.isUnchanged
  failed_eq : p.shared.failed = p.tasks.countP fun task => task.2.counted?.any Status.isFailed

variable {s : Settings} {options : Options} {t : Tree} {paths : List String} {p : Progress}

/-- No task has done anything. -/
theorem tracks_start : (start t paths).Tracks s options t paths where
  paths_eq := by simp [start, Function.comp_def]
  faithful := by
    intro task hmem
    obtain ⟨path, -, rfl⟩ := List.mem_map.1 hmem
    trivial
  tree_eq := by
    simp only [start, storeAll, List.foldl_map]
    induction paths with
    | nil => rfl
    | cons path rest ih => exact ih
  report_eq := by simp [start, List.countP_map, Function.comp_def, Stage.recorded?]
  changed_eq := by simp [start, List.countP_map, Function.comp_def, Stage.counted?]
  unchanged_eq := by simp [start, List.countP_map, Function.comp_def, Stage.counted?]
  failed_eq := by simp [start, List.countP_map, Function.comp_def, Stage.counted?]

/-- A turn moves one task on and leaves the tasks before and behind it as they are. -/
theorem turn_eq {i : Nat} {path : String} {stage : Stage} (h : p.tasks[i]? = some (path, stage)) :
    ∃ before behind, p.tasks = before ++ (path, stage) :: behind ∧
      p.turn s options i = ⟨(stage.advance s options path p.shared).1,
        before ++ (path, (stage.advance s options path p.shared).2) :: behind⟩ := by
  obtain ⟨hinside, hatI⟩ := List.getElem?_eq_some_iff.1 h
  refine ⟨p.tasks.take i, p.tasks.drop (i + 1), ?_, ?_⟩
  · rw [← hatI, List.getElem_cons_drop, List.take_append_drop]
  · simp only [turn, h]
    rw [List.set_eq_take_append_cons_drop, if_pos hinside]

/-- The step: a turn changes one task, and what is shared only by what that task does. -/
theorem Tracks.turn (hapart : paths.Pairwise t.Apart) (h : p.Tracks s options t paths) (i : Nat) :
    (p.turn s options i).Tracks s options t paths := by
  cases hatI : p.tasks[i]? with
  | none => simpa [Progress.turn, hatI] using h
  | some task =>
    obtain ⟨path, stage⟩ := task
    obtain ⟨before, behind, htasks, hturn⟩ := @turn_eq s options p i path stage hatI
    obtain ⟨hpaths, hfaithful, htree, hreport, hchanged, hunchanged, hfailed⟩ := h
    rw [htasks] at hpaths hfaithful htree hreport hchanged hunchanged hfailed
    rw [← hpaths, List.map_append, List.map_cons, List.pairwise_append, List.pairwise_cons]
      at hapart
    have hapartBefore : ∀ task ∈ before, t.Apart task.1 path := fun task hmem =>
      hapart.2.2 _ (List.mem_map_of_mem hmem) _ List.mem_cons_self
    have hapartBehind : ∀ task ∈ behind, t.Apart path task.1 := fun task hmem =>
      hapart.2.1.1 _ (List.mem_map_of_mem hmem)
    have hseen : stage = .waiting → p.shared.tree.find? path = t.find? path := by
      rintro rfl
      rw [htree]
      apply find?_storeAll
      intro task hmem
      rcases List.mem_append.1 hmem with hmem | hmem
      · exact .inr (hapartBefore task hmem)
      · rcases List.mem_cons.1 hmem with rfl | hmem
        · exact .inl rfl
        · exact .inr (hapartBehind task hmem).symm
    simp only [List.countP_append, List.countP_cons] at hreport hchanged hunchanged hfailed
    rw [hturn]
    refine ⟨?_, ?_, ?_, ?_, ?_, ?_, ?_⟩
    · simpa using hpaths
    · intro task hmem
      rcases List.mem_append.1 hmem with hmem | hmem
      · exact hfaithful task (List.mem_append_left _ hmem)
      · rcases List.mem_cons.1 hmem with rfl | hmem
        · exact Stage.faithful_advance hseen (hfaithful (path, stage) (by simp))
        · exact hfaithful task (List.mem_append_right _ (List.mem_cons_of_mem _ hmem))
    · -- What the task writes now, it writes in its place among the tasks: the others, behind it,
      -- write elsewhere.
      rw [storeAll_append, storeAll_cons] at htree ⊢
      rcases @Stage.tree_advance s options path p.shared stage with
        ⟨hsame, hkept⟩ | ⟨status, hunwritten, hwritten, hstored⟩
      · simp only [Stage.store, hsame, hkept] at htree ⊢
        exact htree
      · simp only [Stage.store, hunwritten] at htree
        simp only [Stage.store, hwritten, hstored, htree]
        apply store_storeAll
        intro task hmem
        rw [apart_storeAll]
        exact hapartBehind task hmem
    · simp only [List.countP_append, List.countP_cons]
      rw [← Nat.add_assoc] at hreport ⊢
      exact Stage.report_advance hreport
    · simp only [List.countP_append, List.countP_cons]
      have := @Stage.changed_advance s options path p.shared stage
      omega
    · simp only [List.countP_append, List.countP_cons]
      have := @Stage.unchanged_advance s options path p.shared stage
      omega
    · simp only [List.countP_append, List.countP_cons]
      have := @Stage.failed_advance s options path p.shared stage
      omega

/-- The run, by induction on the schedule. -/
theorem Tracks.run (hapart : paths.Pairwise t.Apart) (schedule : List Nat)
    (h : p.Tracks s options t paths) : (p.run s options schedule).Tracks s options t paths := by
  induction schedule generalizing p with
  | nil => exact h
  | cons i rest ih => exact ih (h.turn hapart i)

/-! ### The end of a run

A schedule is complete when every task has its four turns in it. How the turns of different tasks
come between each other is not asked. -/

/-- A turn moves its task on and no other. -/
theorem turns_turn {i j : Nat} {task : String × Stage} (h : p.tasks[j]? = some task) :
    ∃ task', (p.turn s options i).tasks[j]? = some task' ∧
      min 4 (task.2.turns + if i = j then 1 else 0) ≤ task'.2.turns := by
  obtain ⟨path, stage⟩ := task
  by_cases hsame : i = j
  · subst hsame
    have hinside : i < p.tasks.length := (List.getElem?_eq_some_iff.1 h).1
    refine ⟨(path, (stage.advance s options path p.shared).2), ?_, ?_⟩
    · simp only [turn, h]
      rw [List.getElem?_set_self hinside]
    · simpa using Stage.turns_advance
  · refine ⟨(path, stage), ?_, by rw [if_neg hsame]; exact Nat.min_le_right 4 _⟩
    cases hi : p.tasks[i]? with
    | none => simpa [turn, hi] using h
    | some other => simpa [turn, hi, List.getElem?_set_ne hsame] using h

/-- By induction on the schedule: turns add up, to four at most. -/
theorem turns_run {schedule : List Nat} {j : Nat} {task : String × Stage}
    (h : p.tasks[j]? = some task) :
    ∃ task', (p.run s options schedule).tasks[j]? = some task' ∧
      min 4 (task.2.turns + schedule.count j) ≤ task'.2.turns := by
  induction schedule generalizing p task with
  | nil => exact ⟨task, h, Nat.min_le_right 4 _⟩
  | cons i rest ih =>
    obtain ⟨next, hnext, hturn⟩ := @turns_turn s options p i j task h
    obtain ⟨last, hlast, hrest⟩ := ih hnext
    refine ⟨last, hlast, ?_⟩
    rw [List.count_cons]
    by_cases hsame : i = j <;> simp [hsame] at hturn ⊢ <;> omega

/-- Once every task had its four turns, all tasks have ended with what becomes of their files in the
tree that the run started with. -/
theorem tasks_run (hapart : paths.Pairwise t.Apart) {schedule : List Nat}
    (hcomplete : ∀ i < paths.length, 4 ≤ schedule.count i) :
    ((start t paths).run s options schedule).tasks =
      paths.map fun path => (path, .ended (statusIn s options t path)) := by
  have htracks := (@tracks_start s options t paths).run hapart schedule
  apply List.ext_getElem?
  intro j
  have hpath := congrArg (·[j]?) htracks.paths_eq
  simp only [List.getElem?_map] at hpath ⊢
  cases hj : paths[j]? with
  | none => simpa [hj] using hpath
  | some path =>
    have hstart : (start t paths).tasks[j]? = some (path, .waiting) := by simp [start, hj]
    have henough := hcomplete j (List.getElem?_eq_some_iff.1 hj).1
    obtain ⟨⟨path', stage⟩, htask, hturns⟩ :=
      @turns_run s options (start t paths) schedule _ _ hstart
    obtain rfl : path' = path := by simpa [hj, htask] using hpath
    have hended : 4 ≤ stage.turns := by
      simp only [Stage.turns.eq_1] at hturns
      omega
    rw [htask, Option.map_some,
      Stage.eq_ended hended (htracks.faithful _ (List.mem_of_getElem? htask))]

end Progress

/-! ### One file after the other

The run of the program itself goes through the files in order. It is compared with the tree of the
start as well, so that both kinds of runs come to the same results (`resultsIn`, `treeAfter`). -/

section Sequential

variable {s : Settings} {options : Options} {t u : Tree} {paths : List String}

/-- One file, told by its status. -/
theorem processFile_eq (path : String) :
    processFile s options t path =
      (statusIn s options t path).map fun status => (status.store s path t, status) := by
  unfold processFile statusIn
  cases processEntry s.transformation options path ((t.find? path).map (·.2)) with
  | none => rfl
  | some status => cases status <;> rfl

/-- What the tasks of a run have put in the tree when all of them have ended. -/
def treeAfter (s : Settings) (options : Options) (t : Tree) (paths : List String) : Tree :=
  storeAll s t (paths.map fun path => (path, .ended (statusIn s options t path)))

/-- What became of the files whose transformation did not break off. -/
def resultsIn (s : Settings) (options : Options) (t : Tree) (paths : List String) :
    List (String × Status) :=
  paths.filterMap fun path => (statusIn s options t path).map (path, ·)

/-- One file after the other, each of them is met as it was at the start. -/
theorem processFiles_eq (hapart : paths.Pairwise t.Apart)
    (hwhole : ∀ path ∈ paths, ¬ Breaks s options t path) :
    processFiles s options t paths =
      (treeAfter s options t paths, some (resultsIn s options t paths)) := by
  -- The tree `u` that a file is met in has changed, but not where the files still to come are.
  suffices hgeneral : ∀ u : Tree, (∀ path ∈ paths, u.find? path = t.find? path) →
      (∀ a b, u.Apart a b ↔ t.Apart a b) →
      processFiles s options u paths =
        (storeAll s u (paths.map fun path => (path, .ended (statusIn s options t path))),
          some (resultsIn s options t paths)) from
    hgeneral t (fun _ _ => rfl) fun _ _ => Iff.rfl
  induction paths with
  | nil => intro u _ _; rfl
  | cons path rest ih =>
    intro u hmet hsame
    rw [List.pairwise_cons] at hapart
    rw [List.forall_mem_cons] at hwhole hmet
    obtain ⟨status, hstatus⟩ := exists_statusIn hwhole.1
    have hown : statusIn s options u path = some status := by
      rw [statusIn, hmet.1, ← statusIn, hstatus]
    have hrest : ∀ other ∈ rest, (status.store s path u).find? other = t.find? other := by
      intro other hmem
      rw [Status.find?_store _ ((hsame _ _).2 (hapart.1 other hmem))]
      exact hmet.2 other hmem
    have hrun := ih hapart.2 hwhole.2 _ hrest fun a b => by
      rw [← hsame a b, Tree.Apart, Tree.Apart, Status.names?_store, Status.names?_store]
    simp only [processFiles, processFile_eq, hown, Option.map_some, hrun]
    simp [resultsIn, hstatus, Stage.ended, Stage.store, Stage.written?]

/-- A file that breaks off breaks the run off. -/
theorem processFiles_of_breaks (hapart : paths.Pairwise t.Apart) {path : String}
    (hmem : path ∈ paths) (hbreaks : Breaks s options t path) :
    (processFiles s options t paths).2 = none := by
  suffices hgeneral : ∀ u : Tree, u.find? path = t.find? path → (∀ a b, u.Apart a b ↔ t.Apart a b) →
      (processFiles s options u paths).2 = none from
    hgeneral t rfl fun _ _ => Iff.rfl
  induction paths with
  | nil => cases hmem
  | cons first rest ih =>
    intro u hmet hsame
    rw [List.pairwise_cons] at hapart
    simp only [processFiles, processFile_eq]
    cases hfirst : statusIn s options u first with
    | none => rfl
    | some status =>
      rcases List.mem_cons.1 hmem with rfl | hmem
      · rw [statusIn, hmet, ← statusIn, statusIn_eq_none_iff.mpr hbreaks] at hfirst
        cases hfirst
      · have hrest : (status.store s first u).find? path = t.find? path := by
          rw [Status.find?_store _ ((hsame _ _).2 (hapart.1 path hmem)), hmet]
        simp [ih hapart.2 hmem _ hrest fun a b => by
          rw [← hsame a b, Tree.Apart, Tree.Apart, Status.names?_store, Status.names?_store]]

/-- Counting files one by one. -/
theorem foldl_add (summary : Summary) (results : List (String × Status)) {n : Nat}
    (h : summary.report = Report.tally summary.transformation.name n) :
    results.foldl Summary.add summary =
      { transformation := summary.transformation
        changed := summary.changed + results.countP (·.2.isChanged)
        unchanged := summary.unchanged + results.countP (·.2.isUnchanged)
        failed := summary.failed + results.countP (·.2.isFailed)
        report := Report.tally summary.transformation.name (n + results.countP (·.2.isChanged))
        dropped := summary.dropped ++ droppedOptions results
        failures := summary.failures ++ failures results } := by
  induction results generalizing summary n with
  | nil =>
    obtain ⟨⟩ := summary
    simp_all [droppedOptions, failures]
  | cons result rest ih =>
    obtain ⟨path, status⟩ := result
    rw [List.foldl_cons]
    cases status with
    | changed code dropped =>
      have htold : (summary.add (path, .changed code dropped)).report =
          Report.tally summary.transformation.name (n + 1) := by
        simp [Summary.add, h]
      rw [ih _ htold]
      by_cases hempty : dropped = [] <;>
        simp [Summary.add, Status.isChanged, Status.isUnchanged, Status.isFailed, Status.dropped?,
          Status.failure?, hempty, Nat.add_assoc, Nat.add_comm]
    | unchanged =>
      rw [ih _ (show (summary.add (path, .unchanged)).report = _ from h)]
      simp [Summary.add, Status.isChanged, Status.isUnchanged, Status.isFailed, Status.dropped?,
        Status.failure?, Nat.add_assoc, Nat.add_comm]
    | failed message =>
      rw [ih _ (show (summary.add (path, .failed message)).report = _ from h)]
      simp [Summary.add, Status.isChanged, Status.isUnchanged, Status.isFailed, Status.dropped?,
        Status.failure?, Nat.add_assoc, Nat.add_comm]

/-- The summary counts the results by their status. -/
theorem ofResults_eq (transformation : Transformation) (results : List (String × Status)) :
    Summary.ofResults transformation results =
      { transformation
        changed := results.countP (·.2.isChanged)
        unchanged := results.countP (·.2.isUnchanged)
        failed := results.countP (·.2.isFailed)
        report := Report.tally transformation.name (results.countP (·.2.isChanged))
        dropped := droppedOptions results
        failures := failures results } := by
  rw [Summary.ofResults, foldl_add _ results Report.tally_zero.symm]
  simp

/-- A file with a status comes before the results of the others. -/
theorem resultsIn_cons {path : String} {status : Status}
    (h : statusIn s options t path = some status) :
    resultsIn s options t (path :: paths) = (path, status) :: resultsIn s options t paths := by
  simp [resultsIn, h]

/-- Where no transformation breaks off, every file has a result. -/
theorem map_resultsIn (hwhole : ∀ path ∈ paths, ¬ Breaks s options t path) :
    (resultsIn s options t paths).map (Prod.map id some) =
      paths.map fun path => (path, statusIn s options t path) := by
  induction paths with
  | nil => rfl
  | cons path rest ih =>
    rw [List.forall_mem_cons] at hwhole
    obtain ⟨status, hstatus⟩ := exists_statusIn hwhole.1
    simp [resultsIn_cons hstatus, ih hwhole.2, hstatus]

/-- The results name every file once, in order. -/
theorem map_fst_resultsIn (hwhole : ∀ path ∈ paths, ¬ Breaks s options t path) :
    (resultsIn s options t paths).map Prod.fst = paths := by
  have hfst := congrArg (List.map Prod.fst) (map_resultsIn hwhole)
  simpa [Function.comp_def] using hfst

/-- A run of which no file breaks off, told by what it finds in the tree. -/
theorem runOn_eq_conclude (hapart : paths.Pairwise t.Apart)
    (hwhole : ∀ path ∈ paths, ¬ Breaks s (s.options t) t path) :
    runOn s t paths =
      let results := resultsIn s (s.options t) t paths
      conclude s (treeAfter s (s.options t) t paths) results
        (Summary.ofResults s.transformation results) := by
  cases paths with
  | nil => rfl
  | cons path rest =>
    obtain ⟨status, hstatus⟩ := exists_statusIn (hwhole path List.mem_cons_self)
    simp only [runOn, processFiles_eq hapart hwhole, resultsIn_cons hstatus]
    cases hformat : s.format <;> simp [conclude, hformat]

/-- A run of which a file breaks off ends with a code of its own and tells nothing. -/
theorem runOn_of_breaks (hapart : paths.Pairwise t.Apart) {path : String} (hmem : path ∈ paths)
    (hbreaks : Breaks s (s.options t) t path) :
    ∃ after, runOn s t paths = .brokenOff after := by
  obtain ⟨first, rest, rfl⟩ := List.exists_cons_of_ne_nil (List.ne_nil_of_mem hmem)
  have hstuck := processFiles_of_breaks hapart hmem hbreaks
  cases hrun : processFiles s (s.options t) t (first :: rest) with
  | mk after results =>
    obtain rfl : results = none := by rw [← hstuck, hrun]
    exact ⟨after, by simp only [runOn, hrun]⟩

/-! ### The files after a run

What a run leaves in the tree, told file by file and not by how it came about. -/

/-- A run that does not write leaves the tree alone. -/
theorem treeAfter_of_not_write (hwrite : s.write = false) :
    treeAfter s options t paths = t := by
  unfold treeAfter
  induction paths with
  | nil => rfl
  | cons path rest ih =>
    have hkept : Stage.store s path t (.ended (statusIn s options t path)) = t := by
      rw [Stage.store, Stage.written?_ended]
      cases statusIn s options t path with
      | none => rfl
      | some status => cases status <;> simp [Status.store, hwrite]
    rw [List.map_cons, storeAll_cons, hkept]
    exact ih

/-- A changed file holds what it was changed to. -/
theorem find?_treeAfter (hapart : paths.Pairwise t.Apart) (hwrite : s.write = true) {path : String}
    (hmem : path ∈ paths) {names : List String} {content : Content}
    (hfound : t.find? path = some (names, .file content)) {code : String} {dropped : List String}
    (hchanged : statusIn s options t path = some (.changed code dropped)) :
    (treeAfter s options t paths).find? path = some (names, .file (.text code)) := by
  obtain ⟨before, behind, rfl⟩ := List.append_of_mem hmem
  rw [List.pairwise_append, List.pairwise_cons] at hapart
  rw [treeAfter, List.map_append, storeAll_append, List.map_cons, storeAll_cons]
  simp only [Stage.store, Stage.written?_ended, hchanged, Status.store, hwrite, if_true]
  have hbehind : ∀ task ∈ behind.map fun other =>
      (other, Stage.ended (statusIn s options t other)), t.Apart task.1 path := by
    intro task hmap
    obtain ⟨other, hother, rfl⟩ := List.mem_map.1 hmap
    exact (hapart.2.1.1 other hother).symm
  have hbefore : ∀ task ∈ before.map fun other =>
      (other, Stage.ended (statusIn s options t other)), t.Apart task.1 path := by
    intro task hmap
    obtain ⟨other, hother, rfl⟩ := List.mem_map.1 hmap
    exact hapart.2.2 other hother path List.mem_cons_self
  rw [find?_storeAll fun task htask => .inr (by
    rw [Tree.apart_write, apart_storeAll]
    exact hbehind task htask)]
  apply Tree.find?_write_self
  rw [find?_storeAll fun task htask => .inr (hbefore task htask)]
  exact hfound

/-- A file that is not changed holds what it held. -/
theorem entry?_treeAfter {names : List String}
    (hkept : ∀ path ∈ paths, (statusIn s options t path).any Status.isChanged = true →
      t.names? path ≠ some names) :
    Tree.entry? (treeAfter s options t paths) names = t.entry? names := by
  apply entry?_storeAll
  intro task hmap
  obtain ⟨path, hmem, rfl⟩ := List.mem_map.1 hmap
  rw [Stage.written?_ended]
  exact hkept path hmem

end Sequential

/-! ### Every schedule

What tasks leave behind when all have ended, and what the files leave behind one after the other,
are put side by side: results, tree, summary and so the whole outcome. -/

section Schedules

variable {s : Settings} {options : Options} {t : Tree} {paths : List String} {schedule : List Nat}

/-- Counting by statuses where not everything has one. -/
theorem countP_filterMap_status {α : Type} (l : List α) (name : α → String)
    (status? : α → Option Status) (q : Status → Bool) :
    (l.filterMap fun a => (status? a).map (name a, ·)).countP (fun result => q result.2) =
      l.countP fun a => (status? a).any q := by
  rw [List.countP_filterMap]
  congr 1
  funext a
  cases status? a <;> rfl

/-- Each file is counted in one way. -/
theorem countP_results (results : List (String × Status)) :
    results.countP (·.2.isChanged) + results.countP (·.2.isUnchanged) +
      results.countP (·.2.isFailed) = results.length := by
  induction results with
  | nil => rfl
  | cons result rest ih =>
    obtain ⟨path, status⟩ := result
    have honce : (if status.isChanged then 1 else 0) + (if status.isUnchanged then 1 else 0) +
        (if status.isFailed then 1 else 0) = 1 := by
      cases status <;> rfl
    simp only [List.countP_cons, List.length_cons]
    omega

/-- The results are those of the files in order. -/
theorem Progress.results_run (hapart : paths.Pairwise t.Apart)
    (hcomplete : ∀ i < paths.length, 4 ≤ schedule.count i) :
    ((start t paths).run s options schedule).results = resultsIn s options t paths := by
  rw [results, tasks_run hapart hcomplete, List.filterMap_map]
  simp [resultsIn]

/-- The tree is the one that the files leave in order. -/
theorem Progress.tree_run (hapart : paths.Pairwise t.Apart)
    (hcomplete : ∀ i < paths.length, 4 ≤ schedule.count i) :
    ((start t paths).run s options schedule).shared.tree = treeAfter s options t paths := by
  rw [(tracks_start.run hapart schedule).tree_eq, tasks_run hapart hcomplete, treeAfter]

/-- The counters and the report agree with the results. -/
theorem Progress.summary_run (hapart : paths.Pairwise t.Apart)
    (hcomplete : ∀ i < paths.length, 4 ≤ schedule.count i) :
    ((start t paths).run s options schedule).summary s =
      Summary.ofResults s.transformation (resultsIn s options t paths) := by
  have htracks := (@tracks_start s options t paths).run hapart schedule
  rw [ofResults_eq, summary, results_run hapart hcomplete, htracks.report_eq, htracks.changed_eq,
    htracks.unchanged_eq, htracks.failed_eq, tasks_run hapart hcomplete]
  simp only [resultsIn, countP_filterMap_status, List.countP_map, Function.comp_def,
    Stage.counted?_ended, Stage.recorded?_ended]

/-- Where no transformation breaks off, no task does. -/
theorem Progress.outcome_run (hapart : paths.Pairwise t.Apart)
    (hcomplete : ∀ i < paths.length, 4 ≤ schedule.count i)
    (hwhole : ∀ path ∈ paths, ¬ Breaks s options t path) :
    let final := (start t paths).run s options schedule
    final.outcome s = conclude s final.shared.tree final.results (final.summary s) := by
  intro final
  have htasks : final.tasks = _ := tasks_run hapart hcomplete
  rw [outcome, if_neg]
  rw [htasks, List.any_map, List.any_eq_true]
  rintro ⟨path, hmem, hbroken⟩
  simp only [Function.comp_apply, Stage.isBroken_ended, Option.isNone_iff_eq_none] at hbroken
  exact hwhole path hmem (statusIn_eq_none_iff.mp hbroken)

/-- A task that broke off leaves a file uncounted. -/
theorem Progress.Tracks.counted_lt {p : Progress} (h : p.Tracks s options t paths)
    {task : String × Stage} (hmem : task ∈ p.tasks) (hbroken : task.2 = .broken) :
    p.shared.changed + p.shared.unchanged + p.shared.failed < paths.length := by
  have hcounted : p.shared.changed + p.shared.unchanged + p.shared.failed = p.results.length := by
    rw [h.changed_eq, h.unchanged_eq, h.failed_eq, ← countP_results, results]
    simp only [countP_filterMap_status]
  rw [hcounted, ← h.paths_eq, List.length_map, results,
    List.length_filterMap_lt_length_iff_exists]
  exact ⟨task, hmem, by rw [hbroken]; rfl⟩

/-- A file that breaks off breaks the run off, in every schedule that lets its task come so far. -/
theorem Progress.outcome_run_of_breaks (hapart : paths.Pairwise t.Apart)
    {i : Nat} {path : String} (hi : paths[i]? = some path) (hbreaks : Breaks s options t path)
    (hturns : 2 ≤ schedule.count i) :
    let final := (start t paths).run s options schedule
    final.outcome s = .brokenOff final.shared.tree ∧
      final.shared.changed + final.shared.unchanged + final.shared.failed < paths.length := by
  intro final
  have htracks := (@tracks_start s options t paths).run hapart schedule
  have hstart : (start t paths).tasks[i]? = some (path, .waiting) := by simp [start, hi]
  obtain ⟨⟨path', stage⟩, htask, hdone⟩ :=
    @turns_run s options (start t paths) schedule _ _ hstart
  have hpath := congrArg (·[i]?) htracks.paths_eq
  obtain rfl : path' = path := by simpa [List.getElem?_map, hi, htask] using hpath
  have hmem := List.mem_of_getElem? htask
  have hcome : 2 ≤ stage.turns := by
    simp only [Stage.turns.eq_1] at hdone
    omega
  have hbroken : stage = .broken :=
    Stage.eq_broken hbreaks hcome (htracks.faithful _ hmem)
  refine ⟨?_, htracks.counted_lt hmem hbroken⟩
  rw [outcome, if_pos (List.any_eq_true.mpr ⟨_, hmem, by rw [hbroken]; rfl⟩)]

/-- Options are told in the order of the files. -/
theorem map_fst_droppedOptions (results : List (String × Status)) :
    ((droppedOptions results).map Prod.fst).Sublist (results.map Prod.fst) := by
  induction results with
  | nil => exact .slnil
  | cons result rest ih =>
    obtain ⟨path, status⟩ := result
    cases h : status.dropped? with
    | none => simpa [h] using ih.cons path
    | some dropped => simpa [h] using ih

/-- So are failures. -/
theorem map_fst_failures (results : List (String × Status)) :
    ((failures results).map Prod.fst).Sublist (results.map Prod.fst) := by
  induction results with
  | nil => exact .slnil
  | cons result rest ih =>
    obtain ⟨path, status⟩ := result
    cases h : status.failure? with
    | none => simpa [h] using ih.cons path
    | some message => simpa [h] using ih

end Schedules

/-- Whatever the order in which the tasks of a run take their turns, its outcome is the same: that
of the files one after the other. It is one over any paths to different files of which none breaks
the run off.

Each file is counted once and the report agrees with the count of changed files. A run that writes
leaves a changed file with the code that its own text at the start gives, and everything else as it
was; a run that does not write changes nothing. What is told comes in the order of the paths, which
is a sorted one where they were selected by patterns (`pairwise_selectFiles`). The run fails if and
only if a file did, or a check found one that would change. -/
theorem run_every_schedule (s : Settings) (t : Tree) (paths : List String) (schedule : List Nat)
    (hapart : paths.Pairwise t.Apart)
    (hcomplete : ∀ i < paths.length, 4 ≤ schedule.count i)
    (hwhole : ∀ path ∈ paths, ¬ Breaks s (s.options t) t path) :
    let final := (Progress.start t paths).run s (s.options t) schedule
    let summary := final.summary s
    final.outcome s = runOn s t paths ∧
      final.results.map (Prod.map id some) =
        paths.map (fun path => (path, statusIn s (s.options t) t path)) ∧
      summary.changed + summary.unchanged + summary.failed = paths.length ∧
      summary.changed = final.results.countP (·.2.isChanged) ∧
      summary.report.count s.transformation.name = summary.changed ∧
      summary.report.total = summary.changed ∧
      (s.write = true → ∀ path ∈ paths, ∀ names source outcome,
        t.find? path = some (names, .file (.text source)) →
        s.transformation.runFile (s.options t) path source = .ok outcome →
        outcome.changed = true →
        final.shared.tree.find? path = some (names, .file (.text outcome.code))) ∧
      (∀ names, (∀ path ∈ paths, (statusIn s (s.options t) t path).any Status.isChanged = true →
          t.names? path ≠ some names) →
        final.shared.tree.entry? names = t.entry? names) ∧
      (s.write = false → final.shared.tree = t) ∧
      (final.outcome s).tree = final.shared.tree ∧
      (∃ rest, (final.outcome s).out = String.join (final.results.map (printed s)) ++ rest) ∧
      (paths.Pairwise (fun a b => Path.le a b = true) →
        (final.results.map Prod.fst).Pairwise (fun a b => Path.le a b = true) ∧
        (summary.dropped.map Prod.fst).Pairwise (fun a b => Path.le a b = true) ∧
        (summary.failures.map Prod.fst).Pairwise (fun a b => Path.le a b = true)) ∧
      ((final.outcome s).exitCode = 1 ↔
        0 < summary.failed ∨ (s.check = true ∧ 0 < summary.changed)) := by
  intro final summary
  -- Every schedule ends with the same results, tree and outcome: those that `resultsIn` reads off
  -- the tree as it was before.
  have hresults : final.results = _ := Progress.results_run hapart hcomplete
  have hsummary : summary = _ := Progress.summary_run hapart hcomplete
  have htree : final.shared.tree = _ := Progress.tree_run hapart hcomplete
  have htold : final.outcome s = conclude s final.shared.tree final.results summary :=
    Progress.outcome_run hapart hcomplete hwhole
  have hfst : final.results.map Prod.fst = paths := by
    rw [hresults, map_fst_resultsIn hwhole]
  have hsame : final.outcome s = runOn s t paths := by
    rw [runOn_eq_conclude hapart hwhole, htold, htree, hresults, hsummary]
  rw [ofResults_eq, ← hresults] at hsummary
  refine ⟨hsame, ?_, ?_, ?_, ?_, ?_, ?_, ?_, ?_, ?_, ?_, ?_, ?_⟩
  · rw [hresults, map_resultsIn hwhole]
  · rw [hsummary]
    simp only [countP_results]
    rw [← hfst, List.length_map]
  · rw [hsummary]
  · rw [hsummary, Report.count_tally]
  · rw [hsummary, Report.total_tally]
  · intro hwrite path hmem names source outcome hfound hdone hchanged
    have hstatus : statusIn s (s.options t) t path =
        some (.changed outcome.code outcome.dropped) := by
      simp [statusIn, processEntry, hfound, hdone, hchanged]
    rw [htree]
    exact find?_treeAfter hapart hwrite hmem hfound hstatus
  · intro names hkept
    rw [htree]
    exact entry?_treeAfter hkept
  · intro hwrite
    rw [htree, treeAfter_of_not_write hwrite]
  · rw [htold]
    exact conclude_tree _ _ _ _
  · rw [htold]
    exact conclude_out _ _ _ _
  · intro hsorted
    rw [← hfst] at hsorted
    refine ⟨hsorted, ?_, ?_⟩
    · rw [hsummary]
      exact hsorted.sublist (map_fst_droppedOptions _)
    · rw [hsummary]
      exact hsorted.sublist (map_fst_failures _)
  · rw [htold]
    apply conclude_exitCode
    rw [hsummary]
    rintro hnone
    simp [hnone]

/-- A component with nothing in it. -/
def emptyComponent : String :=
  "<script>\nexport default defineComponent(\x7b\x7d)\n</script>\n"

/-- A component that a run changes, and one that it leaves. -/
def twoFiles : Tree :=
  ⟨[(["A.vue"], .text emptyComponent), (["b", "B.vue"], .text "<p/>\n")]⟩

/-- The two files in the order in which they are selected. -/
theorem selectFiles_twoFiles : selectFiles twoFiles ["./**/*.vue"] = ["./A.vue", "./b/B.vue"] := by
  have hfound : ["./**/*.vue"].flatMap (Pattern.paths twoFiles) = ["./A.vue", "./b/B.vue"] := by
    decide +kernel
  have hsorted : ["./A.vue", "./b/B.vue"].Pairwise fun a b => Path.le a b = true := by
    decide +kernel
  have hdiffer : Path.same "./A.vue" "./b/B.vue" = false := by decide +kernel
  rw [selectFiles, hfound, List.mergeSort_of_pairwise hsorted]
  simp [dropRepeated, hdiffer]

/-- The task of the second file starts, that of the first overtakes it, and the second ends last. -/
def overtaking : List Nat := [1, 0, 0, 1, 1, 0, 0, 1]

theorem run_every_schedule_twoFiles :
    let s : Settings := { write := true, check := true }
    let paths := selectFiles twoFiles s.patterns
    let final := (Progress.start twoFiles paths).run s (s.options twoFiles) overtaking
    paths.Pairwise twoFiles.Apart ∧ (∀ i < paths.length, 4 ≤ overtaking.count i) ∧
      (∀ path ∈ paths, ¬ Breaks s (s.options twoFiles) twoFiles path) ∧
      paths = ["./A.vue", "./b/B.vue"] ∧
      final.outcome s = run s twoFiles ∧
      (final.summary s).changed + (final.summary s).unchanged + (final.summary s).failed = 2 ∧
      final.shared.tree.find? "./A.vue" =
        some (["A.vue"], .file (.text "<script setup>\n</script>\n")) ∧
      (final.results.map Prod.fst).Pairwise (fun a b => Path.le a b = true) := by
  intro s paths
  have hpaths : paths = ["./A.vue", "./b/B.vue"] := selectFiles_twoFiles
  have hapart : paths.Pairwise twoFiles.Apart := by
    rw [hpaths]
    decide +kernel
  have hcomplete : ∀ i < paths.length, 4 ≤ overtaking.count i := by
    rw [hpaths]
    decide
  have hfound : twoFiles.find? "./A.vue" = some (["A.vue"], .file (.text emptyComponent)) := by
    decide +kernel
  have hrun : s.transformation.runFile (s.options twoFiles) "./A.vue" emptyComponent =
      .ok ⟨"<script setup>\n</script>\n", true, []⟩ := by
    apply eq_ok_of_toOption
    decide +kernel
  have hwhole : ∀ path ∈ paths, ¬ Breaks s (s.options twoFiles) twoFiles path := by
    rw [hpaths]
    simp only [← statusIn_eq_none_iff, List.forall_mem_cons, List.not_mem_nil, false_imp_iff,
      implies_true, and_true]
    refine ⟨by simp [statusIn, processEntry, hfound, hrun], ?_⟩
    decide +kernel
  have hmem : "./A.vue" ∈ paths := by
    rw [hpaths]
    exact List.mem_cons_self
  have hall := run_every_schedule s twoFiles paths overtaking hapart hcomplete hwhole
  generalize (Progress.start twoFiles paths).run s (s.options twoFiles) overtaking = final at hall ⊢
  obtain ⟨hsame, -, hcounted, -, -, -, hwritten, -, -, -, -, hsorted, -⟩ := hall
  refine ⟨hapart, hcomplete, hwhole, hpaths, hsame, ?_, ?_, ?_⟩
  · rw [hcounted]
    exact congrArg List.length hpaths
  · exact hwritten rfl "./A.vue" hmem _ _ _ hfound hrun rfl
  · exact (hsorted (pairwise_selectFiles twoFiles s.patterns)).1

open Transformation (returnedComment) in
/-- A component whose transformation breaks off. -/
def brokenFile : Tree :=
  ⟨[(["A.vue"], .text ("<script>" ++ returnedComment ++ "</script>"))]⟩

/-- One file of a tree is selected and breaks the run off. In every order of the turns that lets its
task come so far, the run ends with a code that is neither 0 nor 1, says nothing, and has counted no
file. -/
theorem outcome_run_brokenFile :
    let s : Settings := {}
    let paths := selectFiles brokenFile s.patterns
    paths = ["./A.vue"] ∧ paths.Pairwise brokenFile.Apart ∧
      (∃ after, run s brokenFile = .brokenOff after) ∧
      ∀ schedule : List Nat, 2 ≤ schedule.count 0 →
        let final := (Progress.start brokenFile paths).run s (s.options brokenFile) schedule
        final.outcome s = .brokenOff final.shared.tree ∧
          (final.outcome s).exitCode = 101 ∧
          final.shared.changed + final.shared.unchanged + final.shared.failed < paths.length := by
  intro s paths
  have hfound : s.patterns.flatMap (Pattern.paths brokenFile) = ["./A.vue"] := by
    decide +kernel
  have hpaths : paths = ["./A.vue"] := by
    simp [paths, selectFiles, hfound, dropRepeated]
  have hapart : paths.Pairwise brokenFile.Apart := by
    rw [hpaths]
    exact List.pairwise_singleton _ _
  have hoptions : s.options brokenFile = {} := by
    decide +kernel
  have hbreaks : Breaks s (s.options brokenFile) brokenFile "./A.vue" := by
    rw [hoptions]
    exact ⟨["A.vue"], _, by decide +kernel,
      Transformation.runFile_brokenOff (by decide +kernel)⟩
  refine ⟨hpaths, hapart, ?_, fun schedule hturns => ?_⟩
  · have hmem : "./A.vue" ∈ paths := by
      rw [hpaths]
      exact List.mem_cons_self
    exact runOn_of_breaks hapart hmem hbreaks
  · intro final
    have hfirst : paths[0]? = some "./A.vue" := by
      rw [hpaths]
      rfl
    obtain ⟨houtcome, hcounted⟩ : final.outcome s = _ ∧ _ :=
      Progress.outcome_run_of_breaks hapart hfirst hbreaks hturns
    exact ⟨houtcome, congrArg Outcome.exitCode houtcome, hcounted⟩

end Batch

end VueSetup
