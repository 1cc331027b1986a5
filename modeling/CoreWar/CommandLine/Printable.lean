/-
What is left of a text when the control sequences of terminals are taken out.

Usage messages quote arguments, and an argument can hold anything. `printable` keeps printing characters and white space
(blank, tab, line feed, form feed, carriage return) and drops other control characters and escape sequences. Sequences
are told apart by the standard automaton for terminals: an escape character starts one, whatever went before; what comes
next decides whether it is short, a control sequence that ends with a letter or the like, or a string that runs on to
its terminator. The terminator of a string may be the byte 9C, which also occurs inside the encoding of characters
beyond ASCII.

White space inside a short sequence or a control sequence is kept, and so is what follows it; the sequence goes on at the
next control character that is dropped.
-/

namespace CoreWar

namespace CommandLine

namespace Printable

/-- where a text stands relative to escape sequences -/
inductive Place where
  /-- outside of any sequence -/
  | ground
  /-- behind an escape character -/
  | escape
  /-- in a short sequence that has more than one character -/
  | escapeIntermediate
  /-- at the start of a control sequence, among its parameters, behind them, or in one that is malformed -/
  | controlEntry
  | controlParameter
  | controlIntermediate
  | controlIgnored
  /-- the same for a device control string, and in its data -/
  | deviceEntry
  | deviceParameter
  | deviceIntermediate
  | deviceIgnored
  | deviceData
  /-- in a string for the operating system -/
  | system
  /-- in one of the strings that nothing reads -/
  | ignoredString
deriving DecidableEq, Repr

/-- the white space that is kept even inside a sequence -/
def isSpace (c : Char) : Bool := c == '\t' || c == '\n' || c == '\x0c' || c == '\r'

/-- between two characters, both included -/
def between (low high c : Char) : Bool := low ≤ c && c ≤ high

/-- the place after a graphic ASCII character or a blank -/
def Place.afterGraphic (c : Char) : Place → Place
  | .ground => .ground
  | .escape =>
    if between ' ' '/' c then .escapeIntermediate
    else if c == '[' then .controlEntry
    else if c == ']' then .system
    else if c == 'P' then .deviceEntry
    else if c == 'X' || c == '^' || c == '_' then .ignoredString
    else .ground
  | .escapeIntermediate => if between ' ' '/' c then .escapeIntermediate else .ground
  | .controlEntry =>
    if between ' ' '/' c then .controlIntermediate else if between '0' '?' c then .controlParameter else .ground
  | .controlParameter =>
    if between ' ' '/' c then .controlIntermediate
    else if between '0' ';' c then .controlParameter
    else if between '<' '?' c then .controlIgnored
    else .ground
  | .controlIntermediate =>
    if between ' ' '/' c then .controlIntermediate else if between '0' '?' c then .controlIgnored else .ground
  | .controlIgnored => if between ' ' '?' c then .controlIgnored else .ground
  | .deviceEntry =>
    if between ' ' '/' c then .deviceIntermediate else if between '0' '?' c then .deviceParameter else .deviceData
  | .deviceParameter =>
    if between ' ' '/' c then .deviceIntermediate
    else if between '0' ';' c then .deviceParameter
    else if between '<' '?' c then .deviceIgnored
    else .deviceData
  | .deviceIntermediate =>
    if between ' ' '/' c then .deviceIntermediate else if between '0' '?' c then .deviceIgnored else .deviceData
  | .deviceIgnored => .deviceIgnored
  | .deviceData => .deviceData
  | .system => .system
  | .ignoredString => .ignoredString

/-- whether white space is let through here -/
def Place.passesSpace : Place → Bool
  | .ground | .escape | .escapeIntermediate => true
  | .controlEntry | .controlParameter | .controlIntermediate | .controlIgnored => true
  | .deviceEntry | .deviceParameter | .deviceIntermediate | .deviceIgnored | .deviceData => false
  | .system | .ignoredString => false

/-- whether the byte 9C ends the sequence -/
def Place.endsAtTerminator : Place → Bool
  | .deviceIgnored | .deviceData | .ignoredString => true
  | _ => false

/-- the place after a character beyond ASCII inside a sequence -/
def Place.afterWide (c : Char) (place : Place) : Place :=
  if place.endsAtTerminator && (String.ofList [c]).toUTF8.toList.contains 0x9c then .ground else place

/-- the place after a control character that is dropped -/
def Place.afterControl (c : Char) (place : Place) : Place :=
  if c == '\x1b' then .escape
  else if c == '\x18' || c == '\x1a' then .ground
  else if c == '\x07' && place == .system then .ground
  else place

/-- whether a character is a control character that is not white space -/
def isControl (c : Char) : Bool := (c < ' ' || c == '\x7f') && !isSpace c

/-- what is kept of a text that begins at `place`; `resumed` tells that white space inside the sequence has been kept
and with it what follows -/
def keep (place : Place) (resumed : Bool) : List Char → List Char
  | [] => []
  | c :: rest =>
    if isControl c then keep (place.afterControl c) false rest
    else if isSpace c then
      if place.passesSpace then c :: keep place true rest else keep place false rest
    else if place = .ground ∨ resumed then
      -- a character beyond ASCII ends an interrupted sequence for good
      c :: keep (if c ≤ '\x7e' then place else .ground) resumed rest
    else if c ≤ '\x7e' then keep (place.afterGraphic c) false rest
    else keep (place.afterWide c) false rest

end Printable

/-- the text without control sequences and control characters, white space excepted -/
def printable (text : String) : String := String.ofList (Printable.keep .ground false text.toList)

end CommandLine

end CoreWar
