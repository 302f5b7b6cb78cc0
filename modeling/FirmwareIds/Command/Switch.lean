import FirmwareIds.Session.Options

/-!
# Switches on a command line

How the words of a command line are told apart, given the switches that a command knows:

    -d DIR   -dDIR   -d=DIR   --dir DIR   --dir=DIR   -bul   -uld DIR

A switch with a value takes the rest of its word, or else the next word, which must not look like
a switch itself. All other words are positions, and behind two hyphens every word is one.

A switch that asks for a notice, such as help, ends the reading: what stands behind it does not
count, and what stands before it must be as allowed as on any other command line.
-/

namespace FirmwareIds.Command

/-- What a value on a command line must be. -/
inductive Operand where
  | text
  /-- A text that is not empty. -/
  | path
  /-- A word for a strictness. -/
  | strictness
  deriving DecidableEq

/-- Whether a text is such a value. -/
def Operand.accepts : Operand → Text → Bool
  | text, _ => true
  | path, s => !s.isEmpty
  | strictness, s => (Strictness.parse s).toOption.isSome

/-- A switch that a command knows. -/
structure Switch where
  /-- Its name behind two hyphens. -/
  long : Text
  /-- Its letter behind one hyphen. -/
  letter : Option Char := none
  /-- Its value, if it has one. -/
  operand : Option Operand := none
  /-- Whether it may be given more than once. -/
  repeats : Bool := false
  /-- Whether it asks for a notice. -/
  notice : Bool := false
  deriving DecidableEq

/-- What a part of a command line gives. -/
inductive Given where
  /-- A switch by its long name, with its value if it has one. -/
  | switch (long value : Text)
  | position (value : Text)
  deriving DecidableEq

/-- A word of a command line. -/
inductive Word where
  | position
  /-- Switches, and the name of a last one that waits for its value. -/
  | switches (given : List Given) (waiting : Option Text)

/-- The switches of a command. -/
structure Switches where
  known : List Switch
  /-- What a position must be. -/
  operand : Operand := .path
  /-- The number of positions there may be; without it, any number. -/
  positions : Option Nat := some 0
  /-- Whether the first position may look like a switch, as long as it is none that is known. -/
  freePosition : Bool := false

/-- The values that a switch is given. -/
def valuesOf (given : List Given) (long : Text) : List Text :=
  given.filterMap fun
    | .switch name value => if name = long then some value else none
    | .position _ => none

/-- What is given by position. -/
def positionsOf (given : List Given) : List Text :=
  given.filterMap fun
    | .switch .. => none
    | .position value => some value

namespace Switches

/-- The word that makes all words behind it positions. -/
def separator : Text := ['-', '-']

/-- Whether a word looks like a switch: a hyphen and more. -/
def looksLikeSwitch : Text → Bool
  | '-' :: _ :: _ => true
  | _ => false

def ofLong? (s : Switches) (name : Text) : Option Switch := s.known.find? (·.long = name)

def ofLetter? (s : Switches) (c : Char) : Option Switch := s.known.find? (·.letter = some c)

/-- A value that is attached to a letter; an equals sign before it does not count. -/
def attached : Text → Text
  | '=' :: value => value
  | value => value

/-- Letters behind one hyphen. -/
def letters (s : Switches) : Text → Option (List Given × Option Text)
  | [] => some ([], none)
  | c :: rest =>
    match s.ofLetter? c with
    | none => none
    | some switch =>
      if switch.notice then some ([.switch switch.long []], none)
      else if switch.operand.isNone then
        (s.letters rest).map fun (given, waiting) => (.switch switch.long [] :: given, waiting)
      else if rest.isEmpty then some ([], some switch.long)
      else some ([.switch switch.long (attached rest)], none)

/-- A name behind two hyphens, perhaps with a value. -/
def named (switch : Switch) (value? : Option Text) : Option (List Given × Option Text) :=
  match value? with
  | none => if switch.operand.isSome then some ([], some switch.long)
      else some ([.switch switch.long []], none)
  | some value =>
    if switch.operand.isSome then some ([.switch switch.long value], none) else none

/-- What a word is. With `free` it may be a position although it looks like a switch. -/
def read (s : Switches) (free : Bool) (word : Text) : Option Word :=
  match word with
  | '-' :: '-' :: body =>
    let name := body.takeWhile (· != '=')
    match s.ofLong? name with
    | none => if free then some .position else none
    | some switch =>
      (named switch (body.dropWhile (· != '=')).tail?).map fun (given, waiting) =>
        .switches given waiting
  | '-' :: c :: rest =>
    if free && (c :: rest).any fun c => (s.ofLetter? c).isNone then some .position
    else (s.letters (c :: rest)).map fun (given, waiting) => .switches given waiting
  | _ => some .position

/-- Whether a notice is asked for. -/
def asksNotice (s : Switches) (given : List Given) : Bool :=
  s.known.any fun switch => switch.notice && !(valuesOf given switch.long).isEmpty

/-- What the words of a command line give, in order, up to a switch that asks for a notice.
`waiting` is a switch before the words that waits for its value, and `free` says that no position
was given yet. -/
def scan (s : Switches) (waiting : Option Text) (free : Bool) :
    List Text → Option (List Given)
  | [] => if waiting.isSome then none else some []
  | word :: rest =>
    match waiting with
    | some long =>
      if looksLikeSwitch word then none
      else (s.scan none free rest).map (.switch long word :: ·)
    | none =>
      if word = separator then some (rest.map .position)
      else
        match s.read (s.freePosition && free) word with
        | none => none
        | some .position => (s.scan none false rest).map (.position word :: ·)
        | some (.switches given waiting) =>
          if s.asksNotice given then some given
          else (s.scan waiting free rest).map (given ++ ·)

/-- Whether a switch is given as it may be: not too often, and with values that it takes. -/
def allowsSwitch (given : List Given) (switch : Switch) : Bool :=
  (switch.repeats || (valuesOf given switch.long).length ≤ 1)
    && switch.operand.all fun operand => (valuesOf given switch.long).all operand.accepts

/-- Whether all is given as it may be. -/
def allows (s : Switches) (given : List Given) : Bool :=
  s.known.all (allowsSwitch given) && s.positions.all ((positionsOf given).length ≤ ·)
    && (positionsOf given).all s.operand.accepts

/-- What a command line gives, if that is allowed. -/
def parse (s : Switches) (words : List Text) : Option (List Given) :=
  (s.scan none true words).filter s.allows

end Switches

end FirmwareIds.Command
