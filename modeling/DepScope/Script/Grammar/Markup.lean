import DepScope.Script.Grammar.Basic

/-!
# DepScope.Script.Grammar.Markup

Markup inside expressions: elements with attributes and children. Text between tags is not made of
words, so a tag ends without skipping what follows it.
-/

namespace DepScope.Script

open Text

/-- A word of markup, which may have dashes inside. -/
def markupWord : Parse Unit := do
  raw fun cs =>
    let n := cs.takeWhile fun c => !isNameBreak c || c = '-'
    match n with
    | c :: _ => if isNameStart c then some ((), n, cs.drop n.length) else none
    | [] => none
  skip

/-- The name of an element or attribute, with the parts before it. -/
def markupName : Parse Unit := do
  markupWord
  let _ ← many (do opening "." <|> opening ":"; markupWord)

/-- A quoted attribute value, in which nothing is escaped. -/
def markupString : Parse Node :=
  leaf do
    raw fun
      | q :: cs =>
        if q = '"' || q = '\'' then
          let body := cs.takeWhile (· != q)
          if body.length < cs.length then
            some ((), q :: body ++ [q], cs.drop (body.length + 1))
          else none
        else none
      | [] => none
    skip
    return .other

/-- An expression in braces, perhaps spread, perhaps absent; nothing is skipped after it. -/
def markupBraces (self : Grammar) : Parse Node := bundled (nested do
  opening "\x7b"
  let _ ← maybe (sign "...")
  let e ← optional (self .expression)
  exactly "\x7d"
  return e)

/-- An attribute. -/
def markupAttribute (self : Grammar) : Parse Node :=
  (do let b ← markupBraces self; skip; return b) <|> bundled (do
    markupName
    optional (do
      opening "="
      markupString <|> (do let v ← markupBraces self <|> self .markup; skip; return v)))

/-- A note between tags, up to the end of its line. -/
def markupNote : Parse Node :=
  leaf do
    exactly "<!--"
    raw fun cs =>
      let line := cs.takeWhile fun c => !isNoteEnd c
      some ((), line, cs.drop line.length)
    return .other

/-- A child of an element. -/
def markupChild (self : Grammar) : Parse Node :=
  markupBraces self <|> markupNote <|>
  (do refuse (do opening "<"; opening "/"); self .markup) <|>
  leaf (do
    raw fun cs =>
      let t := cs.takeWhile fun c => c != '<' && c != '\x7b'
      if t.isEmpty then none else some ((), t, cs.drop t.length)
    return .other)

/-- An element up to its closing bracket. -/
def markupElement (self : Grammar) : Parse Node := bundled do
  opening "<"
  let named ← maybe markupName
  let generics ← optional (self .typeArguments)
  let attributes ← if named.isSome then many (markupAttribute self) else pure []
  let inside : Parse (List Node) := do
    exactly ">"
    let children ← many (markupChild self)
    opening "<"
    opening "/"
    let _ ← maybe markupName
    exactly ">"
    return children
  let children ← (do opening "/"; exactly ">"; return []) <|> inside
  return generics ++ attributes ++ children

end DepScope.Script
