/-!
# Arguments

The words after the name of the program say which command to carry out and how. An option is written
in full after two dashes or, if it has one, as a letter after one dash. Its value is the next word,
or follows it after an equals sign; after a letter the sign may be left out.
-/

namespace ApiClient.CommandLine

inductive Shell where
  | bash
  | elvish
  | fish
  | powershell
  | zsh
deriving DecidableEq, Repr

def Shell.ofName? : String → Option Shell
  | "bash" => some .bash
  | "elvish" => some .elvish
  | "fish" => some .fish
  | "powershell" => some .powershell
  | "zsh" => some .zsh
  | _ => none

/-- What the arguments of a generation say. They add to the configuration. -/
structure Overrides where
  input? : Option String := none
  output? : Option String := none
  namedEnums : Bool := false
  singleMode : Bool := false
  withUndefined : Bool := false
  optimistic : Bool := false
  upgraded : Bool := false
  includedTags : List String := []
  excludedTags : List String := []

inductive Command where
  | generate (overrides : Overrides)
  | validate (input : String)
  | init (force : Bool)
  | completions (shell : Shell)

inductive Request where
  | perform (command : Command)
  | help
  | version

/-- Why a command line is not carried out. -/
inductive Stop where
  | help
  | invalid
deriving DecidableEq

/-! ## Options -/

/-- How an option may be used. -/
inductive Usage where
  /-- At most once and without a value. -/
  | flag
  /-- At most once and with a path. -/
  | path
  /-- Any number of times, each time with a text. -/
  | texts
deriving DecidableEq

structure Switch where
  long : String
  short : Option Char := none
  usage : Usage

/-- A use of an option, with its value. A word that belongs to no option has no name. -/
structure Use where
  name : Option String
  value : String := ""

/-- What may follow the name of a command. -/
structure Shape where
  switches : List Switch := []
  /-- Whether a word may stand alone. At most one word does. -/
  takesWord : String → Bool := fun _ => false

def freeWords (uses : List Use) : List String :=
  (uses.filter fun use => use.name.isNone).map (·.value)

def addWord (shape : Shape) (word : String) (uses : List Use) : Except Stop (List Use) :=
  if shape.takesWord word && (freeWords uses).isEmpty then .ok (uses ++ [⟨none, word⟩])
  else .error .invalid

/-- Adds the use of an option, unless it is used too often or its path is empty. -/
def addUse (switch : Switch) (value : String) (uses : List Use) : Except Stop (List Use) :=
  let again := uses.any fun use => use.name == some switch.long
  match switch.usage with
  | .texts => .ok (uses ++ [⟨some switch.long, value⟩])
  | .path =>
    if again || value.isEmpty then .error .invalid else .ok (uses ++ [⟨some switch.long, value⟩])
  | .flag => if again then .error .invalid else .ok (uses ++ [⟨some switch.long, ""⟩])

def splitAtEquals (word : List Char) : List Char × Option (List Char) :=
  match word.dropWhile (· ≠ '=') with
  | _ :: value => (word.takeWhile (· ≠ '='), some value)
  | [] => (word, none)

/-- Reads an option that is written in full. The result also has the option that still waits for its
value. -/
def readLong (switches : List Switch) (word : List Char) (uses : List Use) :
    Except Stop (List Use × Option Switch) :=
  let (name, value) := splitAtEquals word
  match switches.find? (fun s => s.long.toList == name), value with
  | none, none => .error (if name = "help".toList then .help else .invalid)
  | none, some _ => .error .invalid
  | some switch, value =>
    match switch.usage, value with
    | .flag, some _ => .error .invalid
    | .flag, none => do return (← addUse switch "" uses, none)
    | _, some value => do return (← addUse switch (String.ofList value) uses, none)
    | _, none => .ok (uses, some switch)

def readShort (switches : List Switch) : List Char → List Use →
    Except Stop (List Use × Option Switch)
  | [], uses => .ok (uses, none)
  | letter :: rest, uses =>
    match switches.find? (fun s => s.short == some letter) with
    | none => .error (if letter = 'h' then .help else .invalid)
    | some switch =>
      if switch.usage = .flag then do readShort switches rest (← addUse switch "" uses)
      else
        match rest with
        | [] => .ok (uses, some switch)
        | '=' :: value => do return (← addUse switch (String.ofList value) uses, none)
        | value => do return (← addUse switch (String.ofList value) uses, none)

/-- Reads words up to their end. `waiting` is the option that waits for its value. After a word of
two dashes no word is an option. -/
def readWords (shape : Shape) : List String → List Use → Option Switch → Except Stop (List Use)
  | [], uses, none => .ok uses
  | [], _, some _ => .error .invalid
  | word :: words, uses, waiting =>
    match word.toList, waiting with
    | ['-', '-'], none => words.foldlM (fun uses word => addWord shape word uses) uses
    | '-' :: _ :: _, some _ => .error .invalid
    | '-' :: '-' :: name, none => do
      let (uses, waiting) ← readLong shape.switches name uses
      readWords shape words uses waiting
    | '-' :: letter :: letters, none => do
      let (uses, waiting) ← readShort shape.switches (letter :: letters) uses
      readWords shape words uses waiting
    | _, some switch => do readWords shape words (← addUse switch word uses) none
    | _, none => do readWords shape words (← addWord shape word uses) none

/-! ## Commands -/

def valuesOf (uses : List Use) (name : String) : List String :=
  (uses.filter fun use => use.name == some name).map (·.value)

def isUsed (uses : List Use) (name : String) : Bool :=
  uses.any fun use => use.name == some name

def inputSwitch : Switch := ⟨"input", some 'i', .path⟩

def generateSwitches : List Switch := [
  inputSwitch, ⟨"output", some 'o', .path⟩,
  ⟨"use-enum-type", none, .flag⟩, ⟨"merge-read-write-only", none, .flag⟩,
  ⟨"union-undefined", none, .flag⟩, ⟨"optimistic", none, .flag⟩,
  ⟨"include", none, .texts⟩, ⟨"exclude", none, .texts⟩, ⟨"upgraded", none, .flag⟩]

def Overrides.ofUses (uses : List Use) : Overrides where
  input? := (valuesOf uses "input").head?
  output? := (valuesOf uses "output").head?
  namedEnums := isUsed uses "use-enum-type"
  singleMode := isUsed uses "merge-read-write-only"
  withUndefined := isUsed uses "union-undefined"
  optimistic := isUsed uses "optimistic"
  upgraded := isUsed uses "upgraded"
  includedTags := valuesOf uses "include"
  excludedTags := valuesOf uses "exclude"

def readCommand (name : String) (words : List String) : Except Stop Command :=
  let uses (shape : Shape) := readWords shape words [] none
  match name with
  | "generate" => do
    return .generate (Overrides.ofUses (← uses { switches := generateSwitches }))
  | "validate" => do
    match valuesOf (← uses { switches := [inputSwitch] }) "input" with
    | [input] => return .validate input
    | _ => throw .invalid
  | "init" => do
    return .init (isUsed (← uses { switches := [⟨"force", none, .flag⟩] }) "force")
  | "completions" => do
    let words := freeWords (← uses { takesWord := fun word => (Shell.ofName? word).isSome })
    match words.head?.bind Shell.ofName? with
    | some shell => return .completions shell
    | none => throw .invalid
  | _ => .error .invalid

def commandNames : List String := ["generate", "validate", "init", "completions"]

/-- What a command line asks for, if it makes sense. -/
def Request.ofArguments (arguments : List String) : Option Request :=
  match arguments with
  | [] => none
  | "help" :: words =>
    match words with
    | [] => some .help
    | [name] => if ("help" :: commandNames).contains name then some .help else none
    | _ => none
  | "--help" :: _ => some .help
  | "--version" :: _ => some .version
  | word :: words =>
    match word.toList with
    | '-' :: 'h' :: _ => some .help
    | '-' :: 'V' :: _ => some .version
    | _ =>
      match readCommand word words with
      | .ok command => some (.perform command)
      | .error .help => some .help
      | .error .invalid => none

end ApiClient.CommandLine
