import Cpu32.Source.Position
import Cpu32.Text.Blank

/-!
# Words of source text

White space separates words, and `#` begins a comment that runs to the end of its line.  An `@`
ends a word as a memory reference; standing alone it belongs to the word before it.  A `+` joins
the word before it to the word after it, with or without white space around it.
-/

namespace Cpu32.Source

structure Token where
  text : String
  /-- Where the first character stands. -/
  position : Position
deriving DecidableEq, Repr

/-- Why a text does not divide into words. -/
inductive LexicalFault
  | strayAt
  | strayPlus
  | danglingPlus
deriving DecidableEq, Repr

def LexicalFault.message : LexicalFault → String
  | .strayAt => "'@' must follow a register or number"
  | .strayPlus => "'+' must follow a register or number"
  | .danglingPlus => "'+' must be followed by a register or number"

structure LexicalError where
  position : Position
  fault : LexicalFault
deriving DecidableEq, Repr

/-- A word that may still grow, last character first. -/
structure Draft where
  position : Position
  reversed : List Char
deriving DecidableEq, Repr

namespace Draft

def push (d : Draft) (c : Char) : Draft := { d with reversed := c :: d.reversed }

/-- A word that an `@` or a `+` standing apart may be attached to. -/
def isAttachable (d : Draft) : Bool :=
  match d.reversed with
  | c :: _ => c.isAlphanum
  | [] => false

def token (d : Draft) : Token := ⟨String.ofList d.reversed.reverse, d.position⟩

end Draft

/-- What the next character is read as. -/
inductive Scan.Mode
  /-- Between words. -/
  | gap
  /-- The continuation of a word. -/
  | word (draft : Draft)
  /-- The first character to be joined to a word that ends in `+`. -/
  | joining (draft : Draft)
  | comment
deriving DecidableEq, Repr

/-- A scan of a text up to some character. -/
structure Scan where
  /-- Where the last character stands. -/
  position : Position := .start
  /-- The finished words, latest first. -/
  finished : List Draft := []
  mode : Scan.Mode := .gap
deriving DecidableEq, Repr

namespace Scan

variable (s : Scan)

/-- All words up to here, latest first, with the current one closed. -/
def closed : List Draft :=
  match s.mode with
  | .word draft => draft :: s.finished
  | _ => s.finished

def fail (fault : LexicalFault) : Except LexicalError Scan := .error ⟨s.position, fault⟩

/-- An `@` closes the current word, or goes to the last one. -/
def takeAt : Except LexicalError Scan :=
  match s.mode, s.finished with
  | .word draft, finished => .ok { s with finished := draft.push '@' :: finished, mode := .gap }
  | _, draft :: finished =>
      if draft.isAttachable then .ok { s with finished := draft.push '@' :: finished }
      else s.fail .strayAt
  | _, [] => s.fail .strayAt

/-- A `+` reopens the last word if no word is current. -/
def takePlus : Except LexicalError Scan :=
  match s.mode, s.finished with
  | .word draft, _ => .ok { s with mode := .joining (draft.push '+') }
  | _, draft :: finished =>
      if draft.isAttachable then .ok { s with finished, mode := .joining (draft.push '+') }
      else s.fail .strayPlus
  | _, [] => s.fail .strayPlus

/-- Any other character of a word. -/
def takeLetter (c : Char) : Scan :=
  match s.mode with
  | .word draft => { s with mode := .word (draft.push c) }
  | _ => { s with mode := .word ⟨s.position, [c]⟩ }

/-- The character after a `+` has to be a letter or a digit. -/
def takeJoined (draft : Draft) (c : Char) : Except LexicalError Scan :=
  if Text.isBlank c then .ok s
  else if c.isAlphanum then .ok { s with mode := .word (draft.push c) }
  else s.fail .danglingPlus

/-- Reads the character at the position of the scan. -/
def take (c : Char) : Except LexicalError Scan :=
  match s.mode with
  | .comment => .ok (if c = '\n' then { s with mode := .gap } else s)
  | .joining draft => s.takeJoined draft c
  | _ =>
      if Text.isBlank c then .ok { s with finished := s.closed, mode := .gap }
      else if c = '#' then .ok { s with finished := s.closed, mode := .comment }
      else if c = '@' then s.takeAt
      else if c = '+' then s.takePlus
      else .ok (s.takeLetter c)

/-- Moves on to the next character and reads it. -/
def next (c : Char) : Except LexicalError Scan :=
  { s with position := s.position.advance c }.take c

/-- The words of a text that ends here. -/
def finish : Except LexicalError (List Token) :=
  match s.mode with
  | .joining _ => .error ⟨s.position, .danglingPlus⟩
  | _ => .ok (s.closed.reverse.map Draft.token)

end Scan

/-- The words of a list of characters. -/
def tokensOf (characters : List Char) : Except LexicalError (List Token) :=
  (characters.foldlM Scan.next {}) >>= Scan.finish

/-- The words of a source text. -/
def tokenize (source : String) : Except LexicalError (List Token) :=
  tokensOf source.toList

end Cpu32.Source
