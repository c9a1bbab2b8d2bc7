import Lox.Syntax.Print
import Lox.Proofs.Token.Longest
import Lox.Proofs.Number.Texts

/-!
# The form of a printed tree

A tree is printed as nested lists in parentheses, with words and strings inside (`Form`). Words end
at a blank, a parenthesis or a line break, and strings at their closing quote. So a form is known by
its text, whatever comes after it, if this does not go on with a word (`Form.unique`), and so are
forms on lines of their own (`Form.lines_unique`).
-/

namespace Lox

/-! ## Reading up to an end -/

/-- The characters at which a word ends. -/
def endsWord (c : Char) : Bool :=
  c == ' ' || c == '(' || c == ')' || c == '\n' || c == '"'

/-- A text without any of these. -/
structure IsWord (cs : List Char) : Prop where
  nonempty : cs ≠ []
  goesOn : ∀ c ∈ cs, endsWord c = false

/-- A text with which no word goes on. -/
def Breaks (r : List Char) : Prop :=
  ∀ c ∈ r.head?, endsWord c

/-- The characters that may come after a printed tree. -/
def endsForm (c : Char) : Bool :=
  c == ' ' || c == ')' || c == '\n'

/-- A text that may come after a printed tree. -/
def Stops (r : List Char) : Prop :=
  ∀ c ∈ r.head?, endsForm c

theorem Stops.nil : Stops [] :=
  nofun

theorem Stops.cons {c : Char} (h : endsForm c) (r : List Char) : Stops (c :: r) := by
  rintro _ ⟨⟩
  exact h

theorem Stops.breaks {r : List Char} (h : Stops r) : Breaks r := by
  intro c first
  have ends := h c first
  simp only [endsForm, Bool.or_eq_true, beq_iff_eq] at ends
  obtain (rfl | rfl) | rfl := ends <;> rfl

theorem endsForm_of_endsWord {c : Char} (h : endsWord c = false) : endsForm c = false := by
  refine Bool.eq_false_iff.mpr fun ends => ?_
  rw [Stops.breaks (Stops.cons ends []) c rfl] at h
  cases h

theorem IsWord.span {w r : List Char} (h : IsWord w) (stops : Breaks r) :
    (w ++ r).takeWhile (!endsWord ·) = w ∧ (w ++ r).dropWhile (!endsWord ·) = r := by
  have goesOn : ∀ c ∈ w, (!endsWord c) = true := fun c inside => by rw [h.goesOn c inside]; rfl
  rw [List.takeWhile_append_of_pos goesOn, List.dropWhile_append_of_pos goesOn]
  cases r with
  | nil => simp
  | cons c r => simp [show endsWord c = true from stops c rfl]

theorem IsWord.unique {w w' r r' : List Char} (h : IsWord w) (h' : IsWord w') (stops : Breaks r)
    (stops' : Breaks r') (same : w ++ r = w' ++ r') : w = w' ∧ r = r' := by
  obtain ⟨word, rest⟩ := h.span stops
  obtain ⟨word', rest'⟩ := h'.span stops'
  rw [same] at word rest
  exact ⟨word.symm.trans word', rest.symm.trans rest'⟩

theorem IsWord.exists_cons {w : List Char} (h : IsWord w) :
    ∃ c cs, w = c :: cs ∧ endsWord c = false := by
  obtain ⟨c, cs, rfl⟩ := List.exists_cons_of_ne_nil h.nonempty
  exact ⟨c, cs, rfl, h.goesOn c List.mem_cons_self⟩

/-- A text that may come after a list of printed trees with the mark `sep` between them. -/
structure Closes (sep : Char) (r : List Char) : Prop where
  stops : Stops r
  noMore : r.head? ≠ some sep

theorem Closes.nil (sep : Char) : Closes sep [] :=
  ⟨.nil, nofun⟩

theorem Closes.paren (r : List Char) : Closes ' ' (')' :: r) :=
  ⟨.cons rfl r, by simp⟩

section
variable {α : Type} {sep : Char} {text : α → List Char} {as as' : List α} {r r' : List Char}

theorem stops_flatMap (ends : endsForm sep) (as : List α) (stops : Stops r) :
    Stops (as.flatMap (fun a => sep :: text a) ++ r) := by
  cases as with
  | nil => exact stops
  | cons a as => exact Stops.cons ends _

/-- If things are known by their texts, so is a list of them, each with the mark `sep` in front. -/
theorem flatMap_unique
    (one : ∀ a ∈ as, ∀ a' ∈ as', ∀ r r', Stops r → Stops r' → text a ++ r = text a' ++ r' →
      a = a' ∧ r = r') (ends : endsForm sep) (closes : Closes sep r) (closes' : Closes sep r')
    (same : as.flatMap (fun a => sep :: text a) ++ r = as'.flatMap (fun a => sep :: text a) ++ r') :
    as = as' ∧ r = r' := by
  -- one list ends with the other, since no mark stands where the lists end
  induction as generalizing as' with
  | nil =>
    cases as' with
    | nil => exact ⟨rfl, same⟩
    | cons a' as' => exact absurd (congrArg List.head? same) closes.noMore
  | cons a as ih =>
    cases as' with
    | nil => exact absurd (congrArg List.head? same).symm closes'.noMore
    | cons a' as' =>
      rw [List.flatMap_cons, List.flatMap_cons, List.append_assoc, List.append_assoc,
        List.cons_append, List.cons_append] at same
      obtain ⟨rfl, rest⟩ := one a List.mem_cons_self a' List.mem_cons_self _ _
        (stops_flatMap ends as closes.stops) (stops_flatMap ends as' closes'.stops)
        (List.cons.inj same).2
      obtain ⟨rfl, rfl⟩ := ih (fun b inside b' inside' =>
        one b (List.mem_cons_of_mem _ inside) b' (List.mem_cons_of_mem _ inside')) rest
      exact ⟨rfl, rfl⟩

theorem intercalate_cons (a : α) (as : List α) : [sep].intercalate ((a :: as).map text) =
    text a ++ as.flatMap fun a => sep :: text a := by
  induction as generalizing a with
  | nil => simp
  | cons b bs ih =>
    rw [List.map_cons, List.map_cons, List.intercalate_cons_cons, ← List.map_cons, ih,
      List.flatMap_cons, List.append_assoc]
    rfl

/-- The text begins with what may not come after a printed tree. -/
def BeginsForm (cs : List Char) : Prop :=
  ∃ c rest, cs = c :: rest ∧ endsForm c = false

theorem Stops.ne_append {cs : List Char} (stops : Stops r) (begins : BeginsForm cs)
    (more : List Char) : r ≠ cs ++ more := by
  rintro rfl
  obtain ⟨c, rest, rfl, goesOn⟩ := begins
  rw [show endsForm c = true from stops c rfl] at goesOn
  cases goesOn

/-- If things are known by their texts, so is a list of them with marks between them. -/
theorem intercalate_unique
    (one : ∀ a ∈ as, ∀ a' ∈ as', ∀ r r', Stops r → Stops r' → text a ++ r = text a' ++ r' →
      a = a' ∧ r = r') (begins : ∀ a ∈ as, BeginsForm (text a)) (begins' : ∀ a ∈ as', BeginsForm (text a))
    (ends : endsForm sep) (closes : Closes sep r) (closes' : Closes sep r')
    (same : [sep].intercalate (as.map text) ++ r = [sep].intercalate (as'.map text) ++ r') :
    as = as' ∧ r = r' := by
  cases as with
  | nil =>
    cases as' with
    | nil => exact ⟨rfl, same⟩
    | cons a' as' =>
      rw [intercalate_cons, List.append_assoc] at same
      exact absurd same (closes.stops.ne_append (begins' a' List.mem_cons_self) _)
  | cons a as =>
    cases as' with
    | nil =>
      rw [intercalate_cons, List.append_assoc] at same
      exact absurd same.symm (closes'.stops.ne_append (begins a List.mem_cons_self) _)
    | cons a' as' =>
      rw [intercalate_cons, intercalate_cons, List.append_assoc, List.append_assoc] at same
      obtain ⟨rfl, rest⟩ := one a List.mem_cons_self a' List.mem_cons_self _ _
        (stops_flatMap ends as closes.stops) (stops_flatMap ends as' closes'.stops) same
      obtain ⟨rfl, rfl⟩ := flatMap_unique (fun b inside b' inside' =>
        one b (List.mem_cons_of_mem _ inside) b' (List.mem_cons_of_mem _ inside')) ends closes
        closes' rest
      exact ⟨rfl, rfl⟩

end

/-! ## Leaves -/

/-- What is printed without parentheses. -/
inductive Leaf
  | name (text : String)
  | keyword (k : Keyword)
  | symbol (s : Symbol)
  | number (value : Float)
  | string (contents : String)

namespace Leaf

/-- The text of a leaf. -/
def text : Leaf → List Char
  | name text => text.toList
  | keyword k => k.text.toList
  | symbol s => s.text.toList
  | number value => (Number.treeText value).toList
  | string contents => '"' :: (contents.toList ++ ['"'])

/-- The leaves that are printed: names that are no keywords, two symbols, finite numbers, and
strings without quotes inside. -/
def Valid : Leaf → Prop
  | name text => TokenText .identifier text.toList
  | keyword _ => True
  | symbol s => s = .equal ∨ s = .less
  | number value => value.isFinite
  | string contents => '"' ∉ contents.toList

@[simp] theorem valid_keyword (k : Keyword) : (keyword k).Valid :=
  trivial

@[simp] theorem valid_equal : (symbol .equal).Valid :=
  .inl rfl

@[simp] theorem valid_less : (symbol .less).Valid :=
  .inr rfl

theorem valid_string {contents : String} : (string contents).Valid ↔ '"' ∉ contents.toList :=
  Iff.rfl

/-- The kind of token that a leaf is. -/
def kind : Leaf → TokenKind
  | name _ => .identifier
  | keyword k => .keyword k
  | symbol s => .symbol s
  | number value => .number value
  | string contents => .string contents

variable {l l' : Leaf}

theorem tokenText (h : l.Valid) (noNumber : ∀ x, l ≠ number x) : TokenText l.kind l.text := by
  cases l with
  | name text => exact h
  | keyword k => exact .keyword k
  | symbol s => exact .symbol s
  | number x => exact absurd rfl (noNumber x)
  | string contents =>
    have isString := TokenText.string h
    rwa [String.ofList_toList] at isString

theorem endsWord_of_continuesWord {c : Char} (h : Piece.continuesWord c) : endsWord c = false := by
  refine Bool.eq_false_iff.mpr fun ends => ?_
  simp only [endsWord, Bool.or_eq_true, beq_iff_eq] at ends
  obtain (((rfl | rfl) | rfl) | rfl) | rfl := ends <;> exact absurd h (by decide)

theorem endsWord_of_isDigit {c : Char} (h : c.isDigit) : endsWord c = false :=
  endsWord_of_continuesWord (by simp [Piece.continuesWord, Char.isAlphanum, h])

theorem isWord_of_startsWord {c : Char} {cs : List Char} (h : Piece.startsWord c)
    (goesOn : ∀ d ∈ cs, Piece.continuesWord d) : IsWord (c :: cs) := by
  refine ⟨List.cons_ne_nil c cs, List.forall_mem_cons.mpr ⟨endsWord_of_continuesWord ?_,
    fun d inside => endsWord_of_continuesWord (goesOn d inside)⟩⟩
  rw [Piece.startsWord_iff] at h
  exact Piece.continuesWord_iff.mpr (h.imp_left fun h => by simp [Char.isAlphanum, h])

theorem isWord_name {text : String} (h : TokenText .identifier text.toList) :
    IsWord text.toList := by
  generalize text.toList = cs at h
  cases h with
  | identifier starts goesOn _ =>
    exact isWord_of_startsWord (Piece.startsWord_iff.mpr starts) fun d inside =>
      Piece.continuesWord_iff.mpr (goesOn d inside)

theorem isWord_keyword (k : Keyword) : IsWord k.text.toList := by
  obtain ⟨c, cs, text, starts, goesOn⟩ := Piece.keyword_text_cons k
  exact text ▸ isWord_of_startsWord starts goesOn

theorem isWord_number {x : Float} (finite : x.isFinite) : IsWord (Number.treeText x).toList := by
  obtain ⟨c, cs, text, -, inside⟩ := Number.exists_toList_treeText finite
  rw [text]
  refine ⟨List.cons_ne_nil c cs, fun d there => ?_⟩
  obtain isDigit | rfl | rfl := inside d there
  · exact endsWord_of_isDigit isDigit
  · rfl
  · rfl

/-- Every leaf but a string is a word. -/
theorem isWord (h : l.Valid) (noString : ∀ contents, l ≠ string contents) : IsWord l.text := by
  cases l with
  | name text => exact isWord_name h
  | keyword k => exact isWord_keyword k
  | symbol s =>
    obtain rfl | rfl := h
    · exact ⟨List.cons_ne_nil '=' [], by simp [text, Symbol.text, endsWord]⟩
    · exact ⟨List.cons_ne_nil '<' [], by simp [text, Symbol.text, endsWord]⟩
  | number x => exact isWord_number h
  | string contents => exact absurd rfl (noString contents)

/-- Only numbers begin with a digit or a sign. -/
theorem eq_number {c : Char} {cs : List Char} (h : l.Valid) (text : l.text = c :: cs)
    (starts : c.isDigit ∨ c = '-') : ∃ x, l = number x := by
  by_contra noNumber
  have isToken := tokenText h fun x e => noNumber ⟨x, e⟩
  rw [text] at isToken
  have first := Piece.first_of_tokenText isToken
  obtain isDigit | rfl := starts
  · obtain ⟨x, isNumber, -⟩ := Piece.tokenText_number isDigit cs
    rw [Piece.first_of_isDigit isDigit] at first
    rw [first] at isNumber
    cases l <;> cases isNumber
    exact noNumber ⟨_, rfl⟩
  · have minus : l.kind = .symbol .minus := by
      rw [show Piece.first '-' cs = (⟨.token (.symbol .minus), ['-']⟩, cs) from rfl] at first
      exact (PieceKind.token.inj (congrArg (fun p => p.1.kind) first)).symm
    cases l <;> cases minus
    cases h <;> contradiction

/-- A leaf is known by its text. -/
theorem eq_of_text (h : l.Valid) (h' : l'.Valid) (same : l.text = l'.text) : l = l' := by
  -- A number may be printed with a sign, which no source has; its text is not that of a token.
  by_cases isNumber : ∃ x, l = number x
  · obtain ⟨x, rfl⟩ := isNumber
    obtain ⟨c, cs, text, starts, -⟩ := Number.exists_toList_treeText h
    obtain ⟨y, rfl⟩ := eq_number h' (same.symm.trans text) starts
    rw [Number.treeText_injective h h' (String.toList_inj.mp same)]
  · by_cases isNumber' : ∃ x, l' = number x
    · obtain ⟨y, rfl⟩ := isNumber'
      obtain ⟨c, cs, text, starts, -⟩ := Number.exists_toList_treeText h'
      exact absurd (eq_number h (same.trans text) starts) isNumber
    · have kind : l.kind = l'.kind :=
        (tokenText h fun x e => isNumber ⟨x, e⟩).unique
          (same ▸ tokenText h' fun x e => isNumber' ⟨x, e⟩)
      cases l <;> cases l' <;> cases kind
      · exact congrArg name (String.toList_inj.mp same)
      all_goals rfl

/-- A leaf is known by the beginning of a text, if no word goes on after it. -/
theorem unique (h : l.Valid) (h' : l'.Valid) {r r' : List Char} (stops : Stops r)
    (stops' : Stops r') (same : l.text ++ r = l'.text ++ r') : l = l' ∧ r = r' := by
  have apart {l : Leaf} {contents : String} {r r' : List Char} (h : l.Valid)
      (noString : ∀ contents, l ≠ string contents)
      (same : l.text ++ r = (string contents).text ++ r') : False := by
    obtain ⟨c, cs, text, goesOn⟩ := (isWord h noString).exists_cons
    rw [text] at same
    obtain ⟨rfl, -⟩ := List.cons.inj same
    cases goesOn
  by_cases isString : ∃ contents, l = string contents
  · obtain ⟨contents, rfl⟩ := isString
    by_cases isString' : ∃ contents, l' = string contents
    · obtain ⟨contents', rfl⟩ := isString'
      have inside : contents.toList ++ '"' :: r = contents'.toList ++ '"' :: r' := by
        simpa [text] using same
      have quoted := congrArg Piece.quoted inside
      rw [Piece.quoted_append h, Piece.quoted_append h'] at quoted
      obtain ⟨piece, rfl⟩ := Prod.mk.inj quoted
      have kind := TokenKind.string.inj (PieceKind.token.inj (congrArg Piece.kind piece))
      rw [String.ofList_toList, String.ofList_toList] at kind
      exact ⟨congrArg string kind, rfl⟩
    · exact (apart h' (fun contents e => isString' ⟨contents, e⟩) same.symm).elim
  · by_cases isString' : ∃ contents, l' = string contents
    · obtain ⟨contents', rfl⟩ := isString'
      exact (apart h (fun contents e => isString ⟨contents, e⟩) same).elim
    · obtain ⟨text, rest⟩ := (isWord h fun contents e => isString ⟨contents, e⟩).unique
        (isWord h' fun contents e => isString' ⟨contents, e⟩) stops.breaks stops'.breaks same
      exact ⟨eq_of_text h h' text, rest⟩

end Leaf

/-! ## Heads -/

/-- What a list in parentheses begins with. -/
inductive Head
  | symbol (s : Symbol)
  | keyword (k : Keyword)
  | call
  | group
  | block

namespace Head

/-- The text of a head. -/
def text : Head → List Char
  | symbol s => s.text.toList
  | keyword k => k.text.toList
  | call => ['c', 'a', 'l', 'l']
  | group => ['g', 'r', 'o', 'u', 'p']
  | block => ['b', 'l', 'o', 'c', 'k']

/-- No parenthesis is a head. -/
def Valid : Head → Prop
  | symbol s => s ≠ .leftParen ∧ s ≠ .rightParen
  | _ => True

/-- The kind of token that the text of a head is. -/
def kind : Head → TokenKind
  | symbol s => .symbol s
  | keyword k => .keyword k
  | _ => .identifier

theorem tokenText (h : Head) : TokenText h.kind h.text := by
  have word (c : Char) (starts : Piece.startsWord c = true) (cs : List Char) :=
    Piece.tokenText_word starts cs
  cases h with
  | symbol s => exact .symbol s
  | keyword k => exact .keyword k
  | call => exact word 'c' rfl ['a', 'l', 'l']
  | group => exact word 'g' rfl ['r', 'o', 'u', 'p']
  | block => exact word 'b' rfl ['l', 'o', 'c', 'k']

theorem isWord {h : Head} (valid : h.Valid) : IsWord h.text := by
  cases h with
  | symbol s =>
    obtain ⟨c, cs, t, text, -⟩ := Piece.symbol_text_cons s
    refine ⟨fun none => List.cons_ne_nil c cs (text.symm.trans none), ?_⟩
    cases s
    case leftParen => exact absurd rfl valid.1
    case rightParen => exact absurd rfl valid.2
    all_goals simp [Head.text, Symbol.text, endsWord]
  | keyword k => exact Leaf.isWord_keyword k
  | call | group | block => exact ⟨List.cons_ne_nil _ _, by simp [text, endsWord]⟩

/-- A head is known by its text. -/
theorem eq_of_text {h h' : Head} (same : h.text = h'.text) : h = h' := by
  have kind : h.kind = h'.kind := (tokenText h).unique (same ▸ tokenText h')
  cases h <;> cases h' <;> cases kind
  all_goals first | rfl | exact absurd same (by decide)

end Head

/-! ## Forms -/

/-- A printed tree: a leaf, the name of a function with its parameters, or a list in parentheses. -/
inductive Form
  | leaf (l : Leaf)
  | header (name : String) (params : List String)
  | node (head : Head) (parts : List Form)

namespace Form

mutual

/-- The text of a form. -/
def text : Form → List Char
  | leaf l => l.text
  | header name params =>
    name.toList ++ '(' :: ([' '].intercalate (params.map String.toList) ++ [')'])
  | node head parts => '(' :: (head.text ++ (textList parts ++ [')']))

/-- The texts of forms, each with a blank in front. -/
def textList : List Form → List Char
  | [] => []
  | f :: fs => ' ' :: f.text ++ textList fs

end

mutual

/-- Every leaf, name and head may be printed. -/
def Valid : Form → Prop
  | leaf l => l.Valid
  | header name params => (Leaf.name name).Valid ∧ ∀ param ∈ params, (Leaf.name param).Valid
  | node head parts => head.Valid ∧ ValidList parts

/-- Each of the forms may be printed. -/
def ValidList : List Form → Prop
  | [] => True
  | f :: fs => f.Valid ∧ ValidList fs

end

theorem textList_eq (fs : List Form) : textList fs = fs.flatMap fun f => ' ' :: f.text := by
  induction fs with
  | nil => rfl
  | cons f fs ih => rw [textList, ih, List.flatMap_cons]

theorem validList_iff {fs : List Form} : ValidList fs ↔ ∀ f ∈ fs, f.Valid := by
  induction fs with
  | nil => exact ⟨fun _ => nofun, fun _ => trivial⟩
  | cons f fs ih => rw [ValidList, List.forall_mem_cons, ih]

mutual

/-- What holds of leaves and headers, and of a list if it holds of its parts, holds of every
form. -/
theorem induct {motive : Form → Prop} (leaf : ∀ l, motive (leaf l))
    (header : ∀ name params, motive (header name params))
    (node : ∀ head parts, (∀ f ∈ parts, motive f) → motive (node head parts)) :
    ∀ f, motive f
  | .leaf l => leaf l
  | .header name params => header name params
  | .node head parts => node head parts (inductList leaf header node parts)

theorem inductList {motive : Form → Prop} (leaf : ∀ l, motive (.leaf l))
    (header : ∀ name params, motive (.header name params))
    (node : ∀ head parts, (∀ f ∈ parts, motive f) → motive (.node head parts)) :
    ∀ fs : List Form, ∀ f ∈ fs, motive f
  | [] => nofun
  | f :: fs => List.forall_mem_cons.mpr
      ⟨induct leaf header node f, inductList leaf header node fs⟩

end

end Form

/-- How a leaf begins. -/
theorem Leaf.exists_cons {l : Leaf} (h : l.Valid) :
    ∃ c cs, l.text = c :: cs ∧ endsForm c = false ∧ c ≠ '(' := by
  by_cases isString : ∃ contents, l = .string contents
  · obtain ⟨contents, rfl⟩ := isString
    exact ⟨'"', _, rfl, rfl, by decide⟩
  · obtain ⟨c, cs, text, goesOn⟩ := (isWord h fun contents e => isString ⟨contents, e⟩).exists_cons
    refine ⟨c, cs, text, endsForm_of_endsWord goesOn, ?_⟩
    rintro rfl
    cases goesOn

theorem Leaf.begins {l : Leaf} (h : l.Valid) : BeginsForm l.text := by
  obtain ⟨c, cs, text, goesOn, -⟩ := exists_cons h
  exact ⟨c, cs, text, goesOn⟩

namespace Form

/-- No leaf and no header begins with a parenthesis. -/
theorem ne_of_opens {f : Form} (h : f.Valid) (noNode : ∀ head parts, f ≠ node head parts)
    (r more : List Char) : f.text ++ r ≠ '(' :: more := by
  intro same
  cases f with
  | leaf l =>
    obtain ⟨c, cs, text, -, noOpening⟩ := Leaf.exists_cons h
    rw [Form.text, text] at same
    exact noOpening (List.cons.inj same).1
  | header name params =>
    obtain ⟨c, cs, text, -, noOpening⟩ := Leaf.exists_cons h.1
    replace text : name.toList = c :: cs := text
    rw [Form.text, text] at same
    exact noOpening (List.cons.inj same).1
  | node head parts => exact noNode head parts rfl

/-- No leaf is followed by parameters. -/
theorem leaf_ne_header {l : Leaf} (h : l.Valid) {name : String} (h' : (Leaf.name name).Valid)
    {r : List Char} (stops : Stops r) (more : List Char) :
    l.text ++ r ≠ name.toList ++ '(' :: more := by
  intro same
  have opens : Breaks ('(' :: more) := by
    rintro _ ⟨⟩
    rfl
  by_cases isString : ∃ contents, l = .string contents
  · obtain ⟨contents, rfl⟩ := isString
    obtain ⟨c, cs, text, goesOn⟩ := (Leaf.isWord_name h').exists_cons
    rw [text] at same
    obtain ⟨rfl, -⟩ := List.cons.inj same
    cases goesOn
  · obtain ⟨-, rfl⟩ := (Leaf.isWord h fun contents e => isString ⟨contents, e⟩).unique
      (Leaf.isWord_name h') stops.breaks opens same
    cases stops '(' rfl

/-- A header is known by its text. -/
theorem header_unique {name name' : String} {params params' : List String}
    (h : (header name params).Valid) (h' : (header name' params').Valid) {r r' : List Char}
    (same : (header name params).text ++ r = (header name' params').text ++ r') :
    header name params = header name' params' ∧ r = r' := by
  simp only [text, List.append_assoc, List.cons_append, List.nil_append] at same
  have opens (more : List Char) : Breaks ('(' :: more) := by
    rintro _ ⟨⟩
    rfl
  obtain ⟨sameName, rest⟩ := (Leaf.isWord_name h.1).unique (Leaf.isWord_name h'.1) (opens _)
    (opens _) same
  have one : ∀ p ∈ params, ∀ p' ∈ params', ∀ r r', Stops r → Stops r' →
      p.toList ++ r = p'.toList ++ r' → p = p' ∧ r = r' := by
    intro p inside p' inside' r r' stops stops' same
    obtain ⟨sameParam, rest⟩ := (Leaf.isWord_name (h.2 p inside)).unique
      (Leaf.isWord_name (h'.2 p' inside')) stops.breaks stops'.breaks same
    exact ⟨String.toList_inj.mp sameParam, rest⟩
  obtain ⟨rfl, ending⟩ := intercalate_unique one (fun p inside => Leaf.begins (h.2 p inside))
    (fun p inside => Leaf.begins (h'.2 p inside)) rfl (.paren r) (.paren r') (List.cons.inj rest).2
  exact ⟨by rw [String.toList_inj.mp sameName], (List.cons.inj ending).2⟩

/-- A form is known by the beginning of a text, if no word goes on after it. -/
theorem unique {f g : Form} (h : f.Valid) (h' : g.Valid) {r r' : List Char} (stops : Stops r)
    (stops' : Stops r') (same : f.text ++ r = g.text ++ r') : f = g ∧ r = r' := by
  -- by the first character a form is a list or not, and a name is a header if parameters follow
  induction f using induct generalizing g r r' with
  | leaf l =>
    cases g with
    | leaf l' =>
      obtain ⟨rfl, rest⟩ := Leaf.unique h h' stops stops' same
      exact ⟨rfl, rest⟩
    | header name params =>
      simp only [text, List.append_assoc, List.cons_append] at same
      exact (leaf_ne_header h h'.1 stops _ same).elim
    | node head parts => exact (ne_of_opens h nofun r _ same).elim
  | header name params =>
    cases g with
    | leaf l =>
      simp only [text, List.append_assoc, List.cons_append] at same
      exact (leaf_ne_header h' h.1 stops' _ same.symm).elim
    | header name' params' => exact header_unique h h' same
    | node head parts => exact (ne_of_opens h nofun r _ same).elim
  | node head parts ih =>
    cases g with
    | leaf l => exact (ne_of_opens h' nofun r' _ same.symm).elim
    | header name params => exact (ne_of_opens h' nofun r' _ same.symm).elim
    | node head' parts' =>
      simp only [text, List.append_assoc, List.cons_append, List.nil_append, textList_eq] at same
      have next (parts : List Form) (r : List Char) :
          Stops (parts.flatMap (fun f => ' ' :: f.text) ++ ')' :: r) :=
        stops_flatMap rfl parts (.cons rfl r)
      obtain ⟨sameHead, rest⟩ := (Head.isWord h.1).unique (Head.isWord h'.1) (next parts r).breaks
        (next parts' r').breaks (List.cons.inj same).2
      obtain ⟨rfl, ending⟩ := flatMap_unique (fun f inside g inside' r r' stops stops' =>
        ih f inside (validList_iff.mp h.2 f inside) (validList_iff.mp h'.2 g inside') stops stops')
        rfl (.paren r) (.paren r') rest
      exact ⟨by rw [Head.eq_of_text sameHead], (List.cons.inj ending).2⟩

theorem begins {f : Form} (h : f.Valid) : BeginsForm f.text := by
  cases f with
  | leaf l => exact Leaf.begins h
  | header name params =>
    obtain ⟨c, cs, text, goesOn⟩ := Leaf.begins h.1
    exact ⟨c, _, congrArg (· ++ _) text, goesOn⟩
  | node head parts => exact ⟨'(', _, rfl, rfl⟩

/-- Forms on lines of their own are known by the text. -/
theorem lines_unique {fs gs : List Form} (h : ∀ f ∈ fs, f.Valid) (h' : ∀ g ∈ gs, g.Valid)
    (same : ['\n'].intercalate (fs.map text) = ['\n'].intercalate (gs.map text)) : fs = gs := by
  have one : ∀ f ∈ fs, ∀ g ∈ gs, ∀ r r', Stops r → Stops r' → f.text ++ r = g.text ++ r' →
      f = g ∧ r = r' := fun f inside g inside' r r' stops stops' =>
    unique (h f inside) (h' g inside') stops stops'
  exact (intercalate_unique one (fun f inside => begins (h f inside))
    (fun g inside => begins (h' g inside)) rfl (.nil '\n') (.nil '\n')
    (congrArg (· ++ []) same)).1

end Form

end Lox
