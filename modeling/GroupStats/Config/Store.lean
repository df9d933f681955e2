import GroupStats.Config.Basic
import GroupStats.Step

/-!
# Settings files

Settings are loaded from and saved to a store of files in the working directory and the
directories above it. Paths are followed part by part as a file system does: a directory
cannot be read or written, a path never written cannot be read, and a path cannot go on past
a file. Loading reports a
failure to read with the transport's text, and a text that is not a settings file with its
path only.

A `Setup` is the settings workflow of one process: a store of files, an environment, the
settings in use and whether metrics are recorded. Applying settings validates them first and
then switches metrics recording as they say.
-/

namespace GroupStats

/-- A directory a path can reach: the working directory or one `up` levels above it, or the
root. No other directory exists. -/
inductive Dir where
  | work (up : Nat)
  | root
  deriving DecidableEq, Repr

/-- The directory above; the root is its own. -/
def Dir.parent : Dir → Dir
  | .work up => .work (up + 1)
  | .root => .root

/-- Texts stored by directory and name, in the order they were first written. -/
structure Files where
  entries : List ((Dir × String) × String) := []
  deriving DecidableEq, Repr

namespace Files

/-- What a path leads to: a directory, a stored file, or a name not taken in a directory. -/
inductive Spot where
  | dir (d : Dir)
  | file (d : Dir) (name : String)
  | vacant (d : Dir) (name : String)
  deriving DecidableEq, Repr

/-- The longest name a directory holds, in bytes. -/
def nameMax : Nat := 255

/-- The length a path stays below, in bytes. -/
def pathMax : Nat := 4096

/-- Follows the parts of a path from a spot. An empty part and `.` stay, `..` goes up, and a
name is looked up in the directory reached, failing when it is longer than `nameMax`. Going on
past a file is not a directory, past a vacant name is nothing; a vacant name followed only by
empty parts, that is by slashes, is a directory to one `creating` it. -/
def walk (fs : Files) (creating : Bool) : Spot → List String → Except IoFault Spot
  | s, [] => .ok s
  | .file .., _ :: _ => .error .notDirectory
  | .vacant .., rest =>
    if creating ∧ rest.all (· == "") then .error .isDirectory else .error .notFound
  | .dir d, p :: rest =>
    if p == "" ∨ p == "." then walk fs creating (.dir d) rest
    else if p == ".." then walk fs creating (.dir d.parent) rest
    else if p.utf8ByteSize > nameMax then .error .nameTooLong
    else if fs.entries.any (·.1 == (d, p)) then walk fs creating (.file d p) rest
    else walk fs creating (.vacant d p) rest

/-- Where a path leads: from the root when it starts with a slash, else from the working
directory. The empty path leads nowhere; a path holding a NUL cannot be named at all, and one
of `pathMax` bytes or more is too long. -/
def locate (fs : Files) (creating : Bool) (path : String) : Except IoFault Spot :=
  if path.contains '\x00' then .error (.other "file name contained an unexpected NUL byte")
  else if path.utf8ByteSize ≥ pathMax then .error .nameTooLong
  else match path.splitOn "/" with
    | [""] => .error .notFound
    | "" :: rest => fs.walk creating (.dir .root) rest
    | parts => fs.walk creating (.dir (.work 0)) parts

/-- The text stored at a path. -/
def read (fs : Files) (path : String) : Except IoFault String := do
  match ← fs.locate false path with
  | .dir _ => throw .isDirectory
  | .vacant .. => throw .notFound
  | .file d name =>
    match fs.entries.find? (·.1 == (d, name)) with
    | some (_, text) => pure text
    | none => throw .notFound

/-- Stores a text at a path, replacing what was there. -/
def write (fs : Files) (path text : String) : Except IoFault Files := do
  match ← fs.locate true path with
  | .dir _ => throw .isDirectory
  | .file d name =>
    pure { entries := fs.entries.map fun (k, t) => if k == (d, name) then (k, text) else (k, t) }
  | .vacant d name => pure { entries := fs.entries ++ [((d, name), text)] }

end Files

namespace Config

/-- Loads the settings of a file, with whether the file names the worker count. -/
def load (fs : Files) (path : String) : Except Error (Config × Bool) :=
  match fs.read path with
  | .error e => .error (.configuration (.readFailed path e))
  | .ok text =>
    match read text with
    | some c => .ok (c, namesWorkers text)
    | none => .error (.configuration (.parseFailed (some path)))

/-- The defaults with the overrides of an environment. -/
def fromEnv (env : List (String × String)) : Config := ({} : Config).withEnv env

/-- The settings of a text; a text that is not a settings file fails with no path. -/
def ofText (text : String) : Except Error Config :=
  match read text with
  | some c => .ok c
  | none => .error (.configuration (.parseFailed none))

/-- Saves the settings to a file. -/
def save (c : Config) (fs : Files) (path : String) : Except Error Files := do
  let text ← c.render
  match fs.write path text with
  | .ok fs => pure fs
  | .error e => throw (.configuration (.writeFailed path e))

/-- The worker thread count of a pool built from the settings, when they fix one. -/
def poolSize? (c : Config) : Option Nat :=
  match c.executor.workers with
  | some n => if n = 0 then none else some n
  | none => none

end Config

/-- The settings workflow of one process. `workersStated` says whether the worker count in
use was stated: named by the file loaded, set by the environment, or set directly. A count
never stated is the machine's. -/
structure Setup where
  files : Files := {}
  env : List (String × String) := []
  config : Config := {}
  metricsEnabled : Bool := true
  workersStated : Bool := false
  deriving DecidableEq, Repr

namespace Setup

/-- A step of the workflow. -/
inductive Command where
  | write (path text : String)
  | fromFile (path : String)
  | fromFileWithEnv (path : String)
  | fromEnv
  | applyEnv
  | validate
  | apply
  | save (path : String)
  | setWorkers (n : Nat)
  deriving DecidableEq, Repr

/-- What a step gives back. -/
inductive Outcome where
  | done
  | settings (c : Config)
  | valid
  | applied (metricsEnabled : Bool)
  | saved (text : String)
  deriving DecidableEq, Repr

/-- Puts settings in use, with whether they state the worker count, and gives them back. -/
def use (c : Config) (stated : Bool) : Step Setup Outcome := do
  modify fun s => { s with config := c, workersStated := stated }
  pure (.settings c)

/-- The worker count the settings in use state, if any. -/
def statedWorkers (s : Setup) : Option Nat :=
  if s.workersStated then s.config.executor.workers else none

/-- The worker thread count of a pool built from the settings in use: only a stated count
that is not zero fixes one. -/
def poolSize? (s : Setup) : Option Nat :=
  if s.workersStated then s.config.poolSize? else none

/-- Runs one step; a failed step leaves the settings in use as they were. -/
def step : Command → Step Setup Outcome
  | .write path text => do
    let s ← get
    match s.files.write path text with
    | .ok fs => set { s with files := fs }; pure .done
    | .error e => throw (.configuration (.writeFailed path e))
  | .fromFile path => do
    let (c, named) ← Step.lift (Config.load (← get).files path)
    use c named
  | .fromFileWithEnv path => do
    let s ← get
    let (c, named) ← Step.lift (Config.load s.files path)
    use (c.withEnv s.env) (named || (Config.envWorkers? s.env).isSome)
  | .fromEnv => do
    let s ← get
    use (Config.fromEnv s.env) (Config.envWorkers? s.env).isSome
  | .applyEnv => do
    let s ← get
    use (s.config.withEnv s.env) (s.workersStated || (Config.envWorkers? s.env).isSome)
  | .validate => do
    Step.lift (← get).config.validate
    pure .valid
  | .apply => do
    let s ← get
    Step.lift s.config.validate
    set { s with metricsEnabled := s.config.monitoring.metricsEnabled }
    pure (.applied s.config.monitoring.metricsEnabled)
  | .save path => do
    let s ← get
    let text ← Step.lift s.config.render
    let fs ← Step.lift (s.config.save s.files path)
    set { s with files := fs }
    pure (.saved text)
  | .setWorkers n => do
    modify fun s => { s with config.executor.workers := some n, workersStated := true }
    pure .done

end Setup

end GroupStats
