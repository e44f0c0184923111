import SelectorLint.Path
import SelectorLint.Proofs.Glob.Matching

/-!
# Globs of directories

The glob with two stars and a slash, a name, and a slash and two stars is meant for all that lies in a directory
of this name, wherever that is. It is read to the tokens that say so (`parse_directory`), and what it matches can
be told from the text of a path alone (`matches_directory_iff`): somewhere in the text the name has a slash after
it, and a slash or nothing before it.
-/

namespace SelectorLint

open Text

/-- The name stands in the text of the path between two slashes, or at its start and before a slash. -/
def Path.HasDirectory (path : Path) (name : String) : Prop :=
  ∃ before after, path.text.toList = before ++ name.toList ++ '/' :: after ∧
    (before = [] ∨ before.getLast? = some '/')

namespace Glob

/-! ## Reading -/

/-- The characters that have a meaning of their own in globs. -/
def signs : List Char := ['?', '*', '{', '}', ',', '\\', '[']

theorem tokensFrom_cons_of_not_mem_signs {c : Char} (hc : c ∉ signs) (rules : Rules) (brackets : Bool)
    (builder : Builder) (rest : List Char) :
    tokensFrom rules brackets builder (c :: rest) =
      tokensFrom rules brackets (builder.push c [.literal c]) rest := by
  simp only [signs, List.mem_cons, List.not_mem_nil, or_false, not_or] at hc
  obtain ⟨hany, hstar, hopen, hclose, hcomma, hescape, hbracket⟩ := hc
  rw [tokensFrom, if_neg (by simp [hbracket])]
  all_goals simp_all

/-- Characters that stand for themselves become tokens one after the other. -/
theorem tokensFrom_append_of_not_mem_signs {name : List Char} (hname : ∀ c ∈ name, c ∉ signs) (rules : Rules)
    (brackets : Bool) (builder : Builder) (rest : List Char) :
    tokensFrom rules brackets builder (name ++ rest) =
      tokensFrom rules brackets
        { builder with
          current := (name.map Token.literal).reverse ++ builder.current
          previous := name.getLast?.or builder.previous } rest := by
  induction name generalizing builder with
  | nil => rfl
  | cons c name ih =>
    obtain ⟨hc, hrest⟩ := List.forall_mem_cons.1 hname
    rw [List.cons_append, tokensFrom_cons_of_not_mem_signs hc, ih hrest]
    cases hlast : name.getLast? <;> simp [Builder.push, List.getLast?_cons, hlast]

theorem twoStars_new (rest : List Char) :
    Builder.new.twoStars ('/' :: rest) = (Builder.new.push '/' [.leadingTree], rest) := rfl

theorem twoStars_after_slash (tokens : List Token) (braces : List Braces) :
    (Builder.mk (.literal '/' :: tokens) braces (some '/')).twoStars [] =
      (⟨.trailingTree :: tokens, braces, some '*'⟩, []) := rfl

/-- The tokens of the glob of all directories with a name. -/
def directoryTokens (name : List Char) : List Token :=
  .leadingTree :: (name.map Token.literal ++ [.trailingTree])

theorem parse_directory {name : String} (hname : ∀ c ∈ name.toList, c ∉ signs) :
    parse ("**/" ++ name ++ "/**") = .ok ⟨directoryTokens name.toList, false⟩ := by
  have htext : ("**/" ++ name ++ "/**").toList =
      '*' :: '*' :: '/' :: (name.toList ++ ['/'] ++ ['*', '*']) := by
    simp
  have hslash : ∀ c ∈ name.toList ++ ['/'], c ∉ signs := by
    intro c hc
    rcases List.mem_append.1 hc with hc | hc
    · exact hname c hc
    · rw [List.mem_singleton.1 hc]
      decide
  have hbuilt : Builder.mk (((name.toList ++ ['/']).map Token.literal).reverse ++ [.leadingTree]) []
      ((name.toList ++ ['/']).getLast?.or (some '/')) =
        ⟨.literal '/' :: ((name.toList.map Token.literal).reverse ++ [.leadingTree]), [], some '/'⟩ := by
    simp
  have htokens : tokensFrom ⟨false, false⟩ true .new ("**/" ++ name ++ "/**").toList =
      .ok ⟨.trailingTree :: ((name.toList.map Token.literal).reverse ++ [.leadingTree]), [], some '*'⟩ := by
    rw [htext, tokensFrom, twoStars_new, tokensFrom_append_of_not_mem_signs hslash]
    simp only [Builder.push, Builder.new, List.reverse_singleton, List.append_nil]
    rw [hbuilt, tokensFrom, twoStars_after_slash, tokensFrom]
  rw [parse, parseWith, parseTokens, htokens]
  simp [Except.map, directoryTokens]

/-! ## Matching -/

theorem matchAll_append_iff {first second : List Expression} {text : List UInt8} :
    MatchAll (first ++ second) text ↔
      ∃ front back, text = front ++ back ∧ MatchAll first front ∧ MatchAll second back := by
  induction first generalizing text with
  | nil =>
    constructor
    · intro h
      exact ⟨[], text, rfl, rfl, h⟩
    · intro h
      rcases h with ⟨-, back, rfl, rfl, hback⟩
      exact hback
  | cons expression first ih =>
    rw [List.cons_append, MatchAll]
    constructor
    · intro h
      rcases h with ⟨front, back, rfl, hfront, hback⟩
      rcases ih.1 hback with ⟨middle, last, rfl, hmiddle, hlast⟩
      exact ⟨front ++ middle, last, by simp, ⟨front, middle, rfl, hfront, hmiddle⟩, hlast⟩
    · intro h
      rcases h with ⟨-, last, rfl, ⟨front, middle, rfl, hfront, hmiddle⟩, hlast⟩
      exact ⟨front, middle ++ last, by simp, hfront, ih.2 ⟨middle, last, rfl, hmiddle, hlast⟩⟩

theorem matchAll_only_iff {expected text : List UInt8} :
    MatchAll (expected.map fun byte => .one (.only byte)) text ↔ text = expected := by
  induction expected generalizing text with
  | nil => rfl
  | cons byte expected ih =>
    rw [List.map_cons, MatchAll]
    constructor
    · intro h
      rcases h with ⟨-, back, rfl, ⟨found, rfl, hfound⟩, hback⟩
      rw [ih.1 hback, of_decide_eq_true hfound]
      rfl
    · intro h
      exact ⟨[byte], expected, h, ⟨byte, rfl, decide_eq_true rfl⟩, ih.2 rfl⟩

theorem matchAll_singleton_iff {expression : Expression} {text : List UInt8} :
    MatchAll [expression] text ↔ expression.Matches text := by
  constructor
  · intro h
    rcases h with ⟨front, -, rfl, hfront, rfl⟩
    rwa [List.append_nil]
  · intro h
    exact ⟨text, [], (List.append_nil text).symm, h, rfl⟩

theorem matches_run_any (text : List UInt8) : (Expression.run .any).Matches text := by
  intro byte _
  rfl

theorem matches_oneSlash_iff {text : List UInt8} : oneSlash.Matches text ↔ text = [slash] := by
  rw [← matchAll_singleton_iff]
  exact @matchAll_only_iff [slash] text

/-- Directories at the start are nothing, or anything up to a slash. -/
theorem matchAll_leadingTree_iff {separated : Bool} {text : List UInt8} :
    MatchAll (Token.leadingTree.expression separated) text ↔
      text = [] ∨ ∃ front, text = front ++ [slash] := by
  rw [Token.expression, matchAll_singleton_iff]
  constructor
  · intro h
    rcases h with hoptional | ⟨front, last, rfl, -, hlast⟩ | hnone
    · rcases matchAll_singleton_iff.1 hoptional with hnil | hslash
      · exact .inl hnil
      · exact .inr ⟨[], matches_oneSlash_iff.1 hslash⟩
    · exact .inr ⟨front, by rw [matches_oneSlash_iff.1 (matchAll_singleton_iff.1 hlast)]⟩
    · exact hnone.elim
  · intro h
    rcases h with rfl | ⟨front, rfl⟩
    · exact .inl (matchAll_singleton_iff.2 (.inl rfl))
    · refine .inr (.inl ⟨front, [slash], rfl, matches_run_any front, ?_⟩)
      exact matchAll_singleton_iff.2 (matches_oneSlash_iff.2 rfl)

/-- Directories at the end are a slash and anything after it. -/
theorem matchAll_trailingTree_iff {separated : Bool} {text : List UInt8} :
    MatchAll (Token.trailingTree.expression separated) text ↔ ∃ back, text = slash :: back := by
  rw [Token.expression]
  constructor
  · intro h
    rcases h with ⟨front, back, rfl, hfront, -⟩
    exact ⟨back, by rw [matches_oneSlash_iff.1 hfront]; rfl⟩
  · intro h
    rcases h with ⟨back, rfl⟩
    exact ⟨[slash], back, rfl, matches_oneSlash_iff.2 rfl, matchAll_singleton_iff.2 (matches_run_any back)⟩

theorem expressionOf_literals (separated : Bool) (name : List Char) (tokens : List Token) :
    expressionOf separated (name.map Token.literal ++ tokens) =
      (bytes name).map (fun byte => .one (.only byte)) ++ expressionOf separated tokens := by
  induction name with
  | nil => rfl
  | cons c name ih =>
    rw [List.map_cons, List.cons_append, expressionOf, ih]
    simp [Token.expression, bytes, bytesOf]

theorem expression_directory (name : List Char) :
    Glob.expression ⟨directoryTokens name, false⟩ =
      Token.leadingTree.expression false ++ ((bytes name).map (fun byte => .one (.only byte)) ++
        Token.trailingTree.expression false) := by
  have htokens : Glob.expression ⟨directoryTokens name, false⟩ = expressionOf false (directoryTokens name) := by
    unfold directoryTokens
    cases name <;> rfl
  rw [htokens, directoryTokens, expressionOf, expressionOf_literals]
  simp [expressionOf]

/-- Among the bytes of the path those of the name have a slash after them, and a slash or nothing before them. -/
theorem matches_directory_iff_bytes {name path : String} :
    Glob.Matches ⟨directoryTokens name.toList, false⟩ path ↔
      ∃ front back, bytes path.toList = front ++ (bytes name.toList ++ slash :: back) ∧
        (front = [] ∨ ∃ before, front = before ++ [slash]) := by
  rw [Matches, expression_directory, matchAll_append_iff]
  constructor
  · intro h
    rcases h with ⟨front, back, hpath, hfront, hback⟩
    rcases matchAll_append_iff.1 hback with ⟨middle, last, rfl, hmiddle, hlast⟩
    rcases matchAll_trailingTree_iff.1 hlast with ⟨rest, rfl⟩
    rw [matchAll_only_iff.1 hmiddle] at hpath
    exact ⟨front, rest, hpath, matchAll_leadingTree_iff.1 hfront⟩
  · intro h
    rcases h with ⟨front, back, hpath, hfront⟩
    refine ⟨front, _, hpath, matchAll_leadingTree_iff.2 hfront, matchAll_append_iff.2 ?_⟩
    exact ⟨_, _, rfl, matchAll_only_iff.2 rfl, matchAll_trailingTree_iff.2 ⟨back, rfl⟩⟩

/-- The name at the start of a text and before a slash is found among the bytes. -/
theorem exists_append_of_bytes_name {name text : List Char} {back : List UInt8}
    (h : bytes text = bytes name ++ slash :: back) : ∃ after, text = name ++ '/' :: after := by
  obtain ⟨before, after, rfl, hbefore, -⟩ := exists_append_of_bytes (c := '/') (by decide) h
  exact ⟨after, by rw [bytes_inj hbefore]⟩

/-- The glob matches the paths that lead through a directory with the name. -/
theorem matches_directory_iff {name : String} {path : Path} :
    Glob.Matches ⟨directoryTokens name.toList, false⟩ path.text ↔ path.HasDirectory name := by
  rw [matches_directory_iff_bytes]
  constructor
  · intro h
    rcases h with ⟨front, back, hpath, rfl | ⟨before, rfl⟩⟩
    · obtain ⟨after, hafter⟩ := exists_append_of_bytes_name hpath
      exact ⟨[], after, hafter, .inl rfl⟩
    · rw [List.append_assoc, List.singleton_append] at hpath
      obtain ⟨start, rest, hstart, -, hrest⟩ := exists_append_of_bytes (c := '/') (by decide) hpath
      obtain ⟨after, rfl⟩ := exists_append_of_bytes_name hrest
      exact ⟨start ++ ['/'], after, by simp [hstart], .inr (by simp)⟩
  · intro h
    rcases h with ⟨before, after, hpath, hbefore⟩
    refine ⟨bytes before, bytes after, ?_, ?_⟩
    · rw [hpath, bytes_append, bytes_append, List.append_assoc]
      rfl
    · rcases hbefore with rfl | hlast
      · exact .inl rfl
      · obtain ⟨start, rfl⟩ := List.getLast?_eq_some_iff.1 hlast
        exact .inr ⟨bytes start, bytes_append start ['/']⟩

end Glob

end SelectorLint
