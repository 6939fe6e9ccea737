import ImportAlias.Text.Digit

/-!
# Command lines

A command line is read against options and at most one operand. Every argument
is classified before any is acted on: options may be abbreviated while that is
unambiguous, a short option may carry its value or further short options in the
same argument, and after `--` nothing is an option. What an argument does is a
change of the settings being built, or an end of the reading. A value written
`--` stands for none and puts its option back to where it started.
-/

namespace ImportAlias.Command

/-- Why reading ends before there is anything to run. -/
inductive Stop where
  | help
  | version
  | usage
  deriving DecidableEq, Repr

/-- What an option does: it ends the reading, changes the settings, or takes a value, which it may
refuse; no value is what a value that stands for none leaves. -/
inductive Effect (σ : Type) where
  | ends (stop : Stop)
  | changes (change : σ → σ)
  | takes (change : Option String → σ → Option σ)

namespace Effect

variable {σ : Type}

def takesValue : Effect σ → Bool
  | takes _ => true
  | _ => false

/-- The value that a text stands for. -/
def valueOf (text : String) : Option String :=
  if text = "--" then none else some text

/-- Applies an effect; options without a value ignore the one given here. -/
def apply (effect : Effect σ) (value : String) (settings : σ) : Except Stop σ :=
  match effect with
  | ends stop => .error stop
  | changes change => .ok (change settings)
  | takes change =>
    match change (valueOf value) settings with
    | some settings => .ok settings
    | none => .error .usage

end Effect

/-- The arguments that are no options: none, one required word, or a command with all that follows
it, which gives back what it did not recognize. -/
inductive Operand (σ : Type) where
  | none
  | word (put : String → σ → σ)
  | command (run : List String → σ → Except Stop (σ × List String))

structure Grammar (σ : Type) where
  options : List (List String × Effect σ)
  operand : Operand σ

/-- An option as one argument names it, with the text that it carries in that argument. -/
structure Named (σ : Type) where
  effect : Effect σ
  name : String
  attached : Option String

inductive Piece (σ : Type) where
  | separator
  | word
  | option (named : Named σ)
  | unknown

namespace Grammar

variable {σ : Type}

def effectOf? (grammar : Grammar σ) (name : String) : Option (Effect σ) :=
  (grammar.options.find? (·.1.contains name)).map (·.2)

/-- All names with their effects, in declared order. -/
def names (grammar : Grammar σ) : List (String × Effect σ) :=
  grammar.options.flatMap fun (names, effect) => names.map fun name => (name, effect)

def hasDashes (count : Nat) (arg : String) : Bool :=
  (List.replicate count '-').isPrefixOf arg.toList

/-- The text in front of the first equals sign, and the text behind it if there is one. -/
def splitEquals (arg : String) : String × Option String :=
  let name := arg.toList.takeWhile (· ≠ '=')
  match arg.toList.drop name.length with
  | _ :: text => (String.ofList name, some (String.ofList text))
  | [] => (arg, none)

/-- The options that an argument may abbreviate, or that it joins with a value. -/
def candidates (grammar : Grammar σ) (arg : String) : List (Named σ) :=
  if hasDashes 2 arg then
    let (name, text) := splitEquals arg
    (grammar.names.filter fun known => name.toList.isPrefixOf known.1.toList).map
      fun (known, effect) => ⟨effect, known, text⟩
  else
    grammar.names.filterMap fun (known, effect) =>
      if known = String.ofList (arg.toList.take 2) then
        some ⟨effect, known, some (String.ofList (arg.toList.drop 2))⟩
      else if arg.toList.isPrefixOf known.toList then some ⟨effect, known, none⟩
      else none

/-- Whether an argument that names no option is a word all the same: a negative number, which may
close with a line feed, or anything with a space. -/
def isWordAnyway (arg : String) : Bool :=
  let text := arg.toList.drop 1
  let number := if text.getLast? = some '\n' then text.dropLast else text
  let whole := number.takeWhile Text.isDecimal
  let isNumber :=
    match number.drop whole.length with
    | [] => !whole.isEmpty
    | '.' :: decimals => !decimals.isEmpty && decimals.all Text.isDecimal
    | _ => false
  isNumber || arg.toList.contains ' '

def classify (grammar : Grammar σ) (arg : String) : Except Stop (Piece σ) :=
  if !hasDashes 1 arg || arg = "-" then .ok .word
  else
    match grammar.effectOf? arg with
    | some effect => .ok (.option ⟨effect, arg, none⟩)
    | none =>
      let (name, text) := splitEquals arg
      match text, grammar.effectOf? name with
      | some text, some effect => .ok (.option ⟨effect, name, some text⟩)
      | _, _ =>
        match grammar.candidates arg with
        | [] => .ok (if isWordAnyway arg then .word else .unknown)
        | [named] => .ok (.option named)
        | _ => .error .usage

/-- Classifies every argument; behind the first separator all are words. -/
def classifyAll (grammar : Grammar σ) : List String → Except Stop (List (String × Piece σ))
  | [] => .ok []
  | "--" :: rest => .ok (("--", .separator) :: rest.map fun arg => (arg, .word))
  | arg :: rest => do
    let piece ← grammar.classify arg
    return (arg, piece) :: (← grammar.classifyAll rest)

/-- What is being read: the settings so far, the arguments not recognized, and whether the operand
has been found. -/
structure Progress (σ : Type) where
  settings : σ
  extras : List String
  found : Bool

/-- What one argument asks for: effects with their values in order, and what is left of the
arguments behind it. -/
structure Request (σ : Type) where
  effects : List (Effect σ × String)
  rest : List (String × Piece σ)

/-- Unfolds an option with what its argument carries: a value, or the letters of further options.
The count bounds the options joined in it. -/
def unfold (grammar : Grammar σ) (rest : List (String × Piece σ)) :
    Nat → Named σ → Except Stop (Request σ)
  | 0, _ => .error .usage
  | count + 1, ⟨effect, name, attached⟩ =>
    match effect.takesValue, attached with
    | true, some text => .ok ⟨[(effect, text)], rest⟩
    | true, none =>
      match rest with
      | (value, .word) :: rest => .ok ⟨[(effect, value)], rest⟩
      | _ => .error .usage
    | false, none => .ok ⟨[(effect, "")], rest⟩
    | false, some text =>
      match text.toList with
      | letter :: more => do
        let next := String.ofList ['-', letter]
        match if hasDashes 2 name then none else grammar.effectOf? next with
        | none => .error .usage
        | some nextEffect =>
          let carried := if more.isEmpty then none else some (String.ofList more)
          let request ← grammar.unfold rest count ⟨nextEffect, next, carried⟩
          return { request with effects := (effect, "") :: request.effects }
      | [] => .error .usage

def applyAll (effects : List (Effect σ × String)) (settings : σ) : Except Stop σ :=
  effects.foldlM (fun settings (effect, value) => effect.apply value settings) settings

def dropSeparators (pieces : List (String × Piece σ)) : List (String × Piece σ) :=
  pieces.dropWhile fun
    | (_, .separator) => true
    | _ => false

/-- Takes the operand from the front of the arguments, if it starts there. -/
def takeOperand (grammar : Grammar σ) (progress : Progress σ) (pieces : List (String × Piece σ)) :
    Except Stop (Progress σ × List (String × Piece σ)) :=
  if progress.found then .ok (progress, pieces)
  else
    match grammar.operand, dropSeparators pieces with
    | .word put, (word, .word) :: rest =>
      .ok (⟨put word progress.settings, progress.extras, true⟩, dropSeparators rest)
    | .command run, (_, .word) :: _ => do
      let (settings, extras) ← run (pieces.map (·.1)) progress.settings
      return (⟨settings, progress.extras ++ extras, true⟩, [])
    | _, _ => .ok (progress, pieces)

def isOption : String × Piece σ → Bool
  | (_, .option _) => true
  | (_, .unknown) => true
  | _ => false

/-- Acts on the arguments in order. The operand is looked for wherever words stand; words that it
does not take are not recognized. The count bounds the steps. -/
def act (grammar : Grammar σ) :
    Nat → Progress σ → List (String × Piece σ) → Except Stop (Progress σ)
  | 0, progress, _ => .ok progress
  | count + 1, progress, pieces =>
    match pieces with
    | (_, .option named) :: rest => do
      let request ← grammar.unfold rest (named.attached.elim 1 (·.length + 1)) named
      let settings ← applyAll request.effects progress.settings
      grammar.act count { progress with settings } request.rest
    | (arg, .unknown) :: rest =>
      grammar.act count { progress with extras := progress.extras ++ [arg] } rest
    | pieces => do
      let (progress, rest) ← grammar.takeOperand progress pieces
      if rest.length < pieces.length && rest.any isOption then grammar.act count progress rest
      else
        let words := rest.takeWhile (!isOption ·)
        let progress := { progress with extras := progress.extras ++ words.map (·.1) }
        if rest.any isOption then grammar.act count progress (rest.drop words.length)
        else return progress

/-- Reads arguments into settings, and gives back those that it did not recognize. -/
def parse (grammar : Grammar σ) (settings : σ) (args : List String) :
    Except Stop (σ × List String) := do
  let pieces ← grammar.classifyAll args
  let progress ← grammar.act (2 * args.length + 1) ⟨settings, [], false⟩ pieces
  match grammar.operand, progress.found with
  | .word _, false => .error .usage
  | _, _ => return (progress.settings, progress.extras)

end Grammar

end ImportAlias.Command
