import Collectives.Json.Quoted

/-!
# Trees of JSON texts

The tree of a text shows the text as far as it goes. A flaw is a part of the tree, so who reads a
tree from left to right meets flaws and unwanted values in the order of the text and reports the
first. Behind a flaw a tree holds nothing of interest.
-/

namespace Collectives.Json

/-- How the items of an array end: at its bracket, or at a flaw, which may stand right after a
comma. -/
inductive Ending where
  | closed
  | cut (afterComma : Bool) (flaw : Flaw)
  deriving DecidableEq, Repr

mutual

inductive Tree where
  | null
  | boolean (b : Bool)
  | number (n : Numeral)
  | text (t : Quoted)
  | array (items : Items)
  | object (members : Members)
  | broken (flaw : Flaw)

inductive Items where
  | stop (ending : Ending)
  | more (item : Tree) (rest : Items)

inductive Members where
  | stop (flaw : Option Flaw)
  | more (key : Quoted) (value : Tree) (rest : Members)

end

deriving instance Repr for Tree, Items, Members

def isSpace (c : Char) : Bool := c = ' ' || c = '\n' || c = '\t' || c = '\r'

def skipSpace (cs : List Char) : List Char := cs.dropWhile isSpace

def readWord (word : Tree) : (letters cs : List Char) → Tree × List Char
  | [], cs => (word, cs)
  | _ :: _, [] => (.broken .truncated, [])
  | letter :: letters, c :: cs =>
    if letter = c then readWord word letters cs else (.broken .malformed, [])

def readColon (cs : List Char) : Except Flaw (List Char) :=
  match skipSpace cs with
  | ':' :: rest => .ok rest
  | rest => .error (.at rest)

mutual

/-- Reads a tree; `fuel` bounds the steps. -/
def readTree : (fuel : Nat) → List Char → Tree × List Char
  | 0, _ => (.broken .truncated, [])
  | fuel + 1, cs =>
    match skipSpace cs with
    | [] => (.broken .truncated, [])
    | 'n' :: rest => readWord .null ['u', 'l', 'l'] rest
    | 't' :: rest => readWord (.boolean true) ['r', 'u', 'e'] rest
    | 'f' :: rest => readWord (.boolean false) ['a', 'l', 's', 'e'] rest
    | '"' :: rest =>
      let (t, rest) := Quoted.read rest
      (.text t, rest)
    | '[' :: rest =>
      match skipSpace rest with
      | ']' :: rest => (.array (.stop .closed), rest)
      | [] => (.array (.stop (.cut false .truncated)), [])
      | rest =>
        let (items, rest) := readItems fuel rest
        (.array items, rest)
    | '\x7b' :: rest =>
      match skipSpace rest with
      | '\x7d' :: rest => (.object (.stop none), rest)
      | rest =>
        let (members, rest) := readMembers fuel rest
        (.object members, rest)
    | c :: rest =>
      if c = '-' ∨ c.isDigit then
        let (n, rest) := Numeral.read (c :: rest)
        (.number n, rest)
      else (.broken .malformed, [])

def readItems : (fuel : Nat) → List Char → Items × List Char
  | 0, _ => (.stop (.cut false .truncated), [])
  | fuel + 1, cs =>
    let (item, rest) := readTree fuel cs
    let (items, rest) := match skipSpace rest with
      | ']' :: rest => (.stop .closed, rest)
      | ',' :: rest =>
        match skipSpace rest with
        | [] => (.stop (.cut true .truncated), [])
        | ']' :: _ => (.stop (.cut true .malformed), [])
        | rest => readItems fuel rest
      | rest => (.stop (.cut false (.at rest)), [])
    (.more item items, rest)

/-- Reads a member, which starts at the quote of its key, and the members after it. -/
def readMembers : (fuel : Nat) → List Char → Members × List Char
  | 0, _ => (.stop (some .truncated), [])
  | fuel + 1, '"' :: rest =>
    let (key, rest) := Quoted.read rest
    let (value, rest) := match readColon rest with
      | .ok rest => readTree fuel rest
      | .error flaw => (.broken flaw, [])
    let (members, rest) := match skipSpace rest with
      | '\x7d' :: rest => (.stop none, rest)
      | ',' :: rest => readMembers fuel (skipSpace rest)
      | rest => (.stop (some (.at rest)), [])
    (.more key value members, rest)
  | _ + 1, rest => (.stop (some (.at rest)), [])

end

/-- The tree of a text, and whether anything but blanks follows it. -/
structure Reading where
  tree : Tree
  trailing : Bool

/-- Reads a text. A step that reads no character is followed by one that does, so twice the length
is enough fuel. -/
def Reading.of (s : String) : Reading :=
  let cs := s.toList
  let (tree, rest) := readTree (2 * cs.length + 1) cs
  { tree, trailing := !(skipSpace rest).isEmpty }

end Collectives.Json
