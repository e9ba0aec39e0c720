/-
A directory in a file: reloads and writes of one process, and other writers that replace the
file.  A write goes on from the file as it is on disk, whatever version is installed.
-/

import Shunt.Directory.Stamp

namespace Shunt.Directory

/-- The text of directory files. -/
structure FileFormat (D : Type) where
  parse : D → Except String File
  marshal : File → Except String D

inductive FileDirError (E : Type) where
  | locked (text : String)
  | missing (version : Int) (text : String)
  | unread (text : String)
  | rejected (version : Int) (text : String)
  | staleVersion (got loaded : Int)
  | invalidOnDisk (text : String)
  | refused (e : E)
  | unstamped (text : String)
  | invalid (errors : List FieldError)
  | unprepared (text : String)
  | unwritten (text : String)

/-- The file with what a stat shows of it, and what the process remembers. -/
structure FileDir (D S : Type) where
  data : D
  onDisk : S
  snap : File
  sum : D
  stamp : Option S := none
  statErr : String := ""

/-- What the file system, the hooks and the random source answer to a call. -/
structure FileEnv (S : Type) where
  lock : Except String Unit := .ok ()
  stat : Except String Unit := .ok ()
  read : Except String Unit := .ok ()
  prepare : File → Except String Unit := fun _ => .ok ()
  drawn : Except String Identity := .error ""
  write : Except String Unit := .ok ()
  written : S
  -- the stat after a write may fail
  seen : Bool := true

section

variable {D S E : Type} (format : FileFormat D)

def FileFormat.load (data : D) : Except String File :=
  match format.parse data with
  | .error e => .error e
  | .ok f => if f.validate = [] then .ok f else .error "invalid"

def FileDir.install (d : FileDir D S) (f : File) (data : D) (stamp : Option S) : FileDir D S :=
  { d with snap := f, sum := data, stamp := stamp.or d.stamp }

def FileDir.reload [DecidableEq D] [DecidableEq S] (env : FileEnv S) (d : FileDir D S) :
    FileDir D S × Except (FileDirError E) Bool :=
  match env.stat with
  | .error e =>
    if e ≠ d.statErr then ({ d with statErr := e }, .error (.missing d.snap.version e))
    else (d, .ok false)
  | .ok _ =>
    let d := { d with statErr := "" }
    if d.stamp = some d.onDisk then (d, .ok false)
    else
      match env.read with
      | .error e => (d, .error (.unread e))
      | .ok _ =>
        let d := { d with stamp := some d.onDisk }
        match format.load d.data with
        | .error e => (d, .error (.rejected d.snap.version e))
        | .ok f =>
          if f.version ≤ d.snap.version then
            if f.version = d.snap.version ∧ d.data = d.sum then (d, .ok false)
            else (d, .error (.staleVersion f.version d.snap.version))
          else
            match env.prepare f with
            | .error e => (d, .error (.rejected d.snap.version e))
            | .ok _ => (d.install f d.data (some d.onDisk), .ok true)

/-- The directory that a write puts in place of the one on disk, and its text. -/
def FileFormat.next (env : FileEnv S) (data : D) (fn : File → Except E File) :
    Except (FileDirError E) (File × D) :=
  match env.lock, env.read, format.load data with
  | .error e, _, _ => .error (.locked e)
  | _, .error e, _ => .error (.unread e)
  | _, _, .error e => .error (.invalidOnDisk e)
  | .ok _, .ok _, .ok prev =>
    match fn prev with
    | .error e => .error (.refused e)
    | .ok f =>
      match prev.stamp { f with version := f.version + 1 } env.drawn [] with
      | .error e => .error (.unstamped e)
      | .ok f =>
        if f.validate ≠ [] then .error (.invalid f.validate)
        else
          match env.prepare f, format.marshal f, env.write with
          | .error e, _, _ => .error (.unprepared e)
          | _, .error e, _ => .error (.unwritten e)
          | _, _, .error e => .error (.unwritten e)
          | .ok _, .ok out, .ok _ => .ok (f, out)

def FileDir.mutate (env : FileEnv S) (d : FileDir D S) (fn : File → Except E File) :
    FileDir D S × Except (FileDirError E) Unit :=
  match format.next env d.data fn with
  | .error e => (d, .error e)
  | .ok (f, out) =>
    (({ d with data := out, onDisk := env.written } : FileDir D S).install f out
      (if env.seen then some env.written else none), .ok ())

/-- A change of a directory never touches its version. -/
structure FileChange (E : Type) where
  run : File → Except E File
  version : ∀ f g, run f = .ok g → g.version = f.version

inductive FileCall (D S E : Type) where
  | reload (env : FileEnv S)
  | mutate (env : FileEnv S) (change : FileChange E)
  /-- Another writer puts a valid directory in place of the file. -/
  | replace (data : D) (onDisk : S)

variable [DecidableEq D] [DecidableEq S]

def FileDir.after (d : FileDir D S) : FileCall D S E → FileDir D S
  | .reload env => (reload (E := E) format env d).1
  | .mutate env change => (d.mutate format env change.run).1
  | .replace data onDisk =>
    if (format.load data).isOk then { d with data := data, onDisk := onDisk } else d

def FileDir.trace (d : FileDir D S) : List (FileCall D S E) → List (FileDir D S × FileCall D S E)
  | [] => []
  | call :: rest => (d, call) :: (d.after format call).trace rest

/-- What a refused write changed. -/
def RefusedLeaves (d : FileDir D S) : FileCall D S E → Prop
  | .mutate env change => ∀ e, (d.mutate format env change.run).2 = .error e →
    (d.mutate format env change.run).1.data = d.data ∧
      (d.mutate format env change.run).1.snap = d.snap
  | _ => True

structure KeepsForward (d : FileDir D S) (call : FileCall D S E) : Prop where
  version : d.snap.version ≤ (d.after format call).snap.version
  refused : RefusedLeaves format d call

/-- A write that goes through finds a file on disk at most one version behind the snapshot. -/
def FoundCurrent (d : FileDir D S) : FileCall D S E → Prop
  | .mutate env change => ∀ prev, (d.mutate format env change.run).2 = .ok () →
    format.load d.data = .ok prev → d.snap.version ≤ prev.version + 1
  | _ => True

variable {format} {d : FileDir D S} {env : FileEnv S}

theorem stamp_version {prev f g : File} {drawn : Except String Identity}
    (stamped : prev.stamp f drawn [] = .ok g) : g.version = f.version := by
  unfold File.stamp at stamped
  split at stamped
  · cases stamped
  · cases stamped
    rfl

omit [DecidableEq D] [DecidableEq S] in
theorem next_version {data out : D} {change : FileChange E} {f : File}
    (ok : format.next env data change.run = .ok (f, out)) :
    ∃ prev, format.load data = .ok prev ∧ f.version = prev.version + 1 := by
  unfold FileFormat.next at ok
  split at ok
  · cases ok
  · cases ok
  · cases ok
  rename_i prev _ _ loaded
  split at ok
  · cases ok
  rename_i g ran
  split at ok
  · cases ok
  rename_i stamped
  iterate 2
    split at ok
    · cases ok
  · cases ok
  · cases ok
  cases ok
  refine ⟨prev, loaded, ?_⟩
  rw [stamp_version stamped]
  exact congrArg (· + 1) (change.version prev g ran)

theorem reload_version : d.snap.version ≤ (d.reload (E := E) format env).1.snap.version := by
  unfold FileDir.reload
  split
  · split <;> exact le_refl _
  dsimp only
  split
  · exact le_refl _
  split
  · exact le_refl _
  split
  · exact le_refl _
  split
  · split <;> exact le_refl _
  rename_i older
  split
  · exact le_refl _
  · exact (not_le.mp older).le

theorem keepsForward_iff (call : FileCall D S E) :
    KeepsForward format d call ↔ FoundCurrent format d call := by
  cases call with
  | reload => exact ⟨fun _ => trivial, fun _ => ⟨reload_version, trivial⟩⟩
  | replace =>
    refine ⟨fun _ => trivial, fun _ => ⟨?_, trivial⟩⟩
    simp only [FileDir.after]
    split <;> exact le_refl _
  | mutate env change =>
    cases made : format.next env d.data change.run with
    | error e =>
      have stays : d.mutate format env change.run = (d, .error e) := by
        simp only [FileDir.mutate, made]
      constructor
      · intro _ prev done
        rw [stays] at done
        cases done
      intro _
      refine ⟨?_, fun _ _ => ?_⟩
      · rw [FileDir.after, stays]
      · rw [stays]
        exact ⟨rfl, rfl⟩
    | ok res =>
      obtain ⟨prev, loaded, newer⟩ := next_version made
      have goes : (d.mutate format env change.run).2 = .ok () ∧
          (d.mutate format env change.run).1.snap = res.1 := by
        rw [FileDir.mutate, made]
        exact ⟨rfl, rfl⟩
      constructor
      · intro keeps before _ got
        have forward := keeps.version
        rw [FileDir.after, goes.2, newer] at forward
        rw [loaded] at got
        cases got
        exact forward
      intro current
      refine ⟨?_, fun e refused => ?_⟩
      · rw [FileDir.after, goes.2, newer]
        exact current prev goes.1 loaded
      · rw [goes.1] at refused
        cases refused

theorem never_backwards_iff (d : FileDir D S) (calls : List (FileCall D S E)) :
    (∀ e ∈ d.trace format calls, KeepsForward format e.1 e.2) ↔
      ∀ e ∈ d.trace format calls, FoundCurrent format e.1 e.2 :=
  forall₂_congr fun e _ => keepsForward_iff e.2

end

def versionFormat : FileFormat Nat :=
  ⟨fun n => .ok { version := n }, fun f => .ok f.version.toNat⟩

def atFive : FileDir Nat Unit := { data := 5, onDisk := (), snap := { version := 5 }, sum := 5 }

def drawnID : String := "00000000000000000000000000000000"

def noChange : FileChange Unit := ⟨.ok, fun _ _ eq => by cases eq; rfl⟩

/-- At version five, the file is replaced by one of version one, and a write goes through. -/
theorem older_file_written :
    (atFive.after versionFormat (.replace 1 () : FileCall Nat Unit Unit)).data = 1 ∧
      ((atFive.after versionFormat (.replace 1 () : FileCall Nat Unit Unit)).mutate versionFormat
        { written := (), drawn := .ok ⟨drawnID, drawnID⟩ } noChange.run).2.isOk = true ∧
      ((atFive.after versionFormat (.replace 1 () : FileCall Nat Unit Unit)).after versionFormat
        (.mutate { written := (), drawn := .ok ⟨drawnID, drawnID⟩ } noChange)).snap.version =
        2 := by
  decide +kernel

end Shunt.Directory
