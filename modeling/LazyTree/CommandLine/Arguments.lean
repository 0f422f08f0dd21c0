/-!
What the arguments of the program ask for. They are read from left to right, and the first thing
that is wrong, or a request for help or for the version, decides.
-/
namespace LazyTree.CommandLine

inductive Command where
  /-- Select a path and print the tree once. -/
  | show (path : String) (json all : Bool)
  /-- Select a path and print the tree again after every change. -/
  | watch (path : String)
deriving DecidableEq, Repr, Inhabited

structure Invocation where
  /-- A configuration file besides those that are looked for. -/
  config : Option String
  verbose : Bool
  /-- The host directory behind the top of the namespace. -/
  base : String
  command : Command
deriving DecidableEq, Repr, Inhabited

inductive HelpTopic where
  | program
  | show
  | watch
  | help
deriving DecidableEq, Repr, Inhabited

inductive Reading where
  | run (invocation : Invocation)
  | help (topic : HelpTopic)
  | version
  | refused
deriving DecidableEq, Repr, Inhabited

inductive Argument where
  /-- `--name` or `--name=value`. -/
  | long (name : String) (value : Option String)
  /-- Letters behind a single dash. -/
  | letters (letters : List Char)
  /-- `--` by itself: everything after it is plain. -/
  | plainFromHere
  | plain (text : String)
deriving DecidableEq, Repr

def Argument.of (text : String) : Argument :=
  match text.toList with
  | ['-', '-'] => .plainFromHere
  | '-' :: '-' :: rest =>
    let name := String.ofList (rest.takeWhile (fun c => c ≠ '='))
    match rest.dropWhile (fun c => c ≠ '=') with
    | _ :: value => .long name (some (String.ofList value))
    | [] => .long name none
  | '-' :: c :: rest => .letters (c :: rest)
  | _ => .plain text

/-- A value that was read but not looked at yet: that happens when the next argument starts. -/
inductive Pending where
  | nothing
  /-- The option for a configuration file, whose value has still to come. -/
  | configOpen
  | config (value : String)
  | base (value : String)
deriving DecidableEq, Repr

/-- The arguments in front of the command, as read so far. -/
structure Globals where
  config : Option String
  verbose : Bool
  base : Option String
  pending : Pending
deriving DecidableEq, Repr

namespace Globals

def start : Globals := ⟨none, false, none, .nothing⟩

/-- Looks at the pending value. Paths are not empty, and an option is given once. -/
def settle (g : Globals) : Option Globals :=
  match g.pending with
  | .nothing => some g
  | .configOpen => none
  | .config value =>
    if g.config.isSome || value = "" then none
    else some { g with config := some value, pending := .nothing }
  | .base value =>
    if g.base.isSome || value = "" then none
    else some { g with base := some value, pending := .nothing }

def awaitsConfig (g : Globals) : Bool := g.pending = .configOpen

def setVerbose (g : Globals) : Option Globals :=
  g.settle.bind (fun g => if g.verbose then none else some { g with verbose := true })

/-- Starts waiting for a value, or leaves one pending. -/
def push (g : Globals) (pending : Pending) : Option Globals :=
  g.settle.map (fun g => { g with pending := pending })

def setConfig (g : Globals) (value : String) : Option Globals :=
  (g.push (.config value)).bind settle

/-- A plain argument: the value that is waited for, or the base directory. -/
def takePlain (g : Globals) (text : String) : Option Globals :=
  if g.awaitsConfig then some { g with pending := .config text }
  else
    match g.settle with
    | none => none
    | some g => if g.base.isSome then none else some { g with pending := .base text }

/-- The answer to a request, unless what came before it is wrong. -/
def answer (g : Globals) (reading : Reading) : Reading :=
  match g.settle with
  | some _ => reading
  | none => .refused

def finish (g : Globals) (command : Command) : Reading :=
  match g.settle with
  | some ⟨config, verbose, some base, _⟩ => .run ⟨config, verbose, base, command⟩
  | _ => .refused

end Globals

def readLetters (g : Globals) : List Char → Except Reading Globals
  | [] => .ok g
  | c :: rest =>
    if c = 'v' then
      match g.setVerbose with
      | some g => readLetters g rest
      | none => .error .refused
    else if c = 'h' then .error (g.answer (.help .program))
    else if c = 'V' then .error (g.answer .version)
    else .error .refused

def readShow (g : Globals) (plainOnly : Bool) (path : Option String) (json all : Bool) :
    List String → Reading
  | [] =>
    match path with
    | some path => g.finish (.show path json all)
    | none => .refused
  | text :: rest =>
    match if plainOnly then Argument.plain text else Argument.of text with
    | .plainFromHere => readShow g true path json all rest
    | .long "json" none => if json then .refused else readShow g plainOnly path true all rest
    | .long "all" none => if all then .refused else readShow g plainOnly path json true rest
    | .long "help" none => .help .show
    | .letters ('h' :: _) => .help .show
    | .plain text =>
      if path.isSome then .refused else readShow g plainOnly (some text) json all rest
    | _ => .refused

def readWatch (g : Globals) (plainOnly : Bool) (path : Option String) : List String → Reading
  | [] =>
    match path with
    | some path => g.finish (.watch path)
    | none => .refused
  | text :: rest =>
    match if plainOnly then Argument.plain text else Argument.of text with
    | .plainFromHere => readWatch g true path rest
    | .long "help" none => .help .watch
    | .letters ('h' :: _) => .help .watch
    | .plain text =>
      if path.isSome then .refused else readWatch g plainOnly (some text) rest
    | _ => .refused

def readHelp : List String → Reading
  | [] => .help .program
  | ["show"] => .help .show
  | ["watch"] => .help .watch
  | ["help"] => .help .help
  | _ => .refused

/-- Arguments in front of the command. The name of a command is one wherever no option waits for a
value. Behind `--` no command is found any more, so that is an error. -/
def readGlobals (g : Globals) : List String → Reading
  | [] => .refused
  | text :: rest =>
    if !g.awaitsConfig && text = "show" then readShow g false none false false rest
    else if !g.awaitsConfig && text = "watch" then readWatch g false none rest
    else if !g.awaitsConfig && text = "help" then readHelp rest
    else
      let next? : Except Reading Globals :=
        match Argument.of text with
        | .plainFromHere => .error .refused
        | .long "config" none => ((g.push .configOpen).map .ok).getD (.error .refused)
        | .long "config" (some value) => ((g.setConfig value).map .ok).getD (.error .refused)
        | .long "verbose" none => (g.setVerbose.map .ok).getD (.error .refused)
        | .long "help" none => .error (g.answer (.help .program))
        | .long "version" none => .error (g.answer .version)
        | .long _ _ => .error .refused
        | .letters letters => readLetters g letters
        | .plain text => ((g.takePlain text).map .ok).getD (.error .refused)
      match next? with
      | .ok g => readGlobals g rest
      | .error reading => reading

def read (arguments : List String) : Reading := readGlobals .start arguments

end LazyTree.CommandLine
