import Orchestra.Table
import Orchestra.Task

/-!
# Stop tokens

Tokens form a forest. A stop is issued on one token and reaches it and everything below it, also
what is derived later: a token is stopped when a stop was issued on it or on one of its ancestors.
A stop reaches younger tokens first; of the tokens below a token, those without open tokens of their
own come before it and the others after it.
-/

namespace Orchestra

/-- A token: its ancestors, itself included and first, whether a stop was issued on it, and the
tokens directly below it that are still in use, youngest first. -/
structure Token where
  lineage : List TokenId
  stopIssued : Bool
  openBelow : List TokenId
deriving Repr

/-- All tokens. -/
abbrev Tokens := Table Token

namespace Tokens

/-- The ancestors of a token, itself included and first. -/
def lineage (t : Tokens) (id : TokenId) : List TokenId :=
  match t.get? id with
  | some token => token.lineage
  | none => [id]

/-- Whether a stop was issued on exactly this token. -/
def stopIssued (t : Tokens) (id : TokenId) : Bool :=
  match t.get? id with
  | some token => token.stopIssued
  | none => false

/-- Whether a token is stopped. -/
def isStopped (t : Tokens) (id : TokenId) : Bool :=
  (t.lineage id).any t.stopIssued

/-- The tokens directly below a token that are in use and not stopped, youngest first. -/
def openBelow (t : Tokens) (id : TokenId) : List TokenId :=
  match t.get? id with
  | some token => token.openBelow.filter fun c => !t.isStopped c
  | none => []

/-- Adds a token that is below no other; its number is the former size. -/
def addRoot (t : Tokens) : Tokens :=
  t.push ⟨[t.size], false, []⟩

/-- Adds a token below another; its number is the former size. -/
def addBelow (t : Tokens) (parent : TokenId) : Tokens :=
  (t.push ⟨t.size :: t.lineage parent, false, []⟩).modify parent fun p =>
    { p with openBelow := t.size :: p.openBelow }

/-- Notes that a token is no longer in use. -/
def close (t : Tokens) (id : TokenId) : Tokens :=
  match (t.lineage id).drop 1 with
  | parent :: _ => t.modify parent fun p => { p with openBelow := p.openBelow.erase id }
  | [] => t

/-- Issues a stop on a token. -/
def issueStop (t : Tokens) (id : TokenId) : Tokens :=
  t.modify id fun token => { token with stopIssued := true }

/-- The tokens that a stop newly reaches from those in the list, in the order in which it reaches
them; each of at most `count` rounds takes one token off the list. -/
def reachedFrom (t : Tokens) : (count : Nat) → List TokenId → List TokenId
  | 0, _ => []
  | _ + 1, [] => []
  | count + 1, id :: rest =>
    let below := t.openBelow id
    let plain := below.filter fun c => (t.openBelow c).isEmpty
    let nested := below.filter fun c => !(t.openBelow c).isEmpty
    plain ++ id :: t.reachedFrom count (nested.reverse ++ rest)

/-- The tokens that a stop of a token newly reaches, in the order in which it reaches them. -/
def reached (t : Tokens) (id : TokenId) : List TokenId :=
  if t.isStopped id then [] else t.reachedFrom t.size (t.openBelow id) ++ [id]

end Tokens

end Orchestra
