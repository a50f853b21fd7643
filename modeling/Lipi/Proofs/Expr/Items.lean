import Lipi.Proofs.Expr.WellFormed
import Lipi.Proofs.Token.Shows

set_option autoImplicit false

/-! # The items of an expression

The canonical text of an expression, cut into its tokens (`Expr.items`). The two main statements are
that **the items of an expression make up its text** (`text_items`), and that **the items of a
well-formed one are told apart** (`lexAll_items`). Most constructs start with the expression on their
left, so what an expression starts with is found down its left edge (`Expr.opening`).
-/

namespace Lipi

/-! ## Operators and constants -/

namespace Literal

def item (before : List Char) : Literal → Item
  | number value => .number before value
  | string value => .string before value
  | bool true => .keyword before .sahi
  | bool false => .keyword before .galat
  | null => .keyword before .khali

theorem text_item (before : List Char) (value : Literal) :
    (value.item before).before = before ∧ (value.item before).lexeme = value.text := by
  cases value with
  | bool b => cases b <;> exact ⟨rfl, rfl⟩
  | _ => exact ⟨rfl, rfl⟩

end Literal

/-- The sign of a unary operator. -/
def UnaryOp.sign : UnaryOp → Sign
  | negate => .minus
  | not => .bang

theorem UnaryOp.sign_spelling (op : UnaryOp) : op.sign.spelling = op.spelling := by
  cases op <;> rfl

theorem UnaryOp.ofToken?_sign (op : UnaryOp) : ofToken? (.sign op.sign) = some op := by
  cases op <;> rfl

def BinaryOp.item (before : List Char) : BinaryOp → Item
  | add => .sign before .plus
  | sub => .sign before .minus
  | mul => .sign before .star
  | div => .sign before .slash
  | mod => .sign before .percent
  | less => .sign before .less
  | greater => .sign before .greater
  | lessEqual => .sign before .lessEqual
  | greaterEqual => .sign before .greaterEqual
  | equal => .sign before .equalEqual
  | notEqual => .sign before .bangEqual
  | and => .keyword before .aur
  | or => .keyword before .ya

theorem BinaryOp.text_item (before : List Char) (op : BinaryOp) :
    (op.item before).before = before ∧ (op.item before).lexeme = op.spelling := by
  cases op <;> exact ⟨rfl, rfl⟩

theorem BinaryOp.ofToken?_item (before : List Char) (op : BinaryOp) :
    ofToken? (op.item before).kind = some op := by
  cases op <;> rfl

/-- The kinds of tokens with which a printed expression starts. -/
def TokenKind.startsExpr : TokenKind → Bool
  | number _ => true
  | string _ => true
  | identifier _ => true
  | keyword k =>
    match k with
    | .sahi | .galat | .khali | .yeh | .upar | .naya => true
    | _ => false
  | sign s =>
    match s with
    | .minus | .bang | .leftParen | .leftBracket => true
    | _ => false
  | eof => false

/-! ## Trees -/

namespace Expr

mutual

/-- The items of an expression, with the given blanks in front of the first one. -/
def items (before : List Char) : Expr → List Item
  | literal value _ => [value.item before]
  | identifier name _ => [.word before name]
  | unary op operand _ => .sign before op.sign :: operand.items []
  | binary op left right _ => left.items before ++ op.item [' '] :: right.items [' ']
  | assign target value _ => target.items before ++ .sign [' '] .equal :: value.items [' ']
  | call callee arguments _ =>
    callee.items before ++ .sign [] .leftParen :: (itemsList [] arguments ++ [.sign [] .rightParen])
  | member object name _ => object.items before ++ [.sign [] .dot, .word [] name]
  | index object key _ =>
    object.items before ++ .sign [] .leftBracket :: (key.items [] ++ [.sign [] .rightBracket])
  | array elements _ =>
    .sign before .leftBracket :: (itemsList [] elements ++ [.sign [] .rightBracket])
  | receiver _ => [.keyword before .yeh]
  | super _ => [.keyword before .upar]
  | new className arguments _ =>
    .keyword before .naya :: .word [' '] className :: .sign [] .leftParen ::
      (itemsList [] arguments ++ [.sign [] .rightParen])
  | grouping inner _ => .sign before .leftParen :: (inner.items [] ++ [.sign [] .rightParen])

/-- The items of expressions, separated by commas. -/
def itemsList (before : List Char) : List Expr → List Item
  | [] => []
  | [e] => e.items before
  | e :: es => e.items before ++ .sign [] .comma :: itemsList [' '] es

end

theorem itemsList_cons_cons (before : List Char) (e e' : Expr) (es : List Expr) :
    itemsList before (e :: e' :: es)
      = e.items before ++ .sign [] .comma :: itemsList [' '] (e' :: es) := rfl

theorem textList_cons_cons (e e' : Expr) (es : List Expr) :
    textList (e :: e' :: es) = e.text ++ ", " ++ textList (e' :: es) := rfl

mutual

/-- **The items of an expression make up its text.** -/
theorem text_items (before : List Char) :
    (e : Expr) → Item.text (e.items before) = before ++ e.text.toList
  | literal value _ => by
      obtain ⟨hbefore, hlexeme⟩ := Literal.text_item before value
      rw [items, Item.text_cons, hbefore, hlexeme, Item.text_nil, List.append_nil]
      rfl
  | identifier name _ => by simp [items, text, Item.word]
  | unary op operand _ => by
      simp [items, text, Item.sign, text_items [] operand, UnaryOp.sign_spelling]
  | binary op left right _ => by
      simp [items, text, text_items before left, text_items [' '] right,
        BinaryOp.text_item [' '] op]
  | assign target value _ => by
      simp [items, text, Item.sign, Sign.spelling, text_items before target,
        text_items [' '] value]
  | call callee arguments _ => by
      simp [items, text, Item.sign, Sign.spelling, text_items before callee,
        text_itemsList [] arguments]
  | member object name _ => by
      simp [items, text, Item.sign, Item.word, Sign.spelling, text_items before object]
  | index object key _ => by
      simp [items, text, Item.sign, Sign.spelling, text_items before object, text_items [] key]
  | array elements _ => by
      simp [items, text, Item.sign, Sign.spelling, text_itemsList [] elements]
  | receiver _ => by simp [items, text, Item.keyword, Keyword.spelling]
  | super _ => by simp [items, text, Item.keyword, Keyword.spelling]
  | new className arguments _ => by
      simp [items, text, Item.keyword, Item.word, Item.sign, Keyword.spelling, Sign.spelling,
        text_itemsList [] arguments]
  | grouping inner _ => by
      simp [items, text, Item.sign, Sign.spelling, text_items [] inner]

theorem text_itemsList (before : List Char) : (es : List Expr) →
    Item.text (itemsList before es) = (if es = [] then [] else before) ++ (textList es).toList
  | [] => rfl
  | [e] => text_items before e
  | e :: e' :: es => by
      have hrest := text_itemsList [' '] (e' :: es)
      rw [itemsList_cons_cons, textList_cons_cons]
      simp [Item.sign, Sign.spelling, text_items before e, hrest]

end

/-! ## How an expression starts -/

/-- The sign with which an expression starts, if it starts with one. -/
def opening : Expr → Option Sign
  | unary op _ _ => some op.sign
  | binary _ left _ _ => left.opening
  | assign target _ _ => target.opening
  | call callee _ _ => callee.opening
  | member object _ _ => object.opening
  | index object _ _ => object.opening
  | array _ _ => some .leftBracket
  | grouping _ _ => some .leftParen
  | _ => none

/-- A character as the first one of an expression: no sign in front of it goes on with it, and it is
a bracket if the expression starts with one. -/
structure Begins (opening : Option Sign) (c : Char) : Prop where
  calm : calm [c] = true
  paren : c = '(' ↔ opening = some .leftParen
  bracket : c = '[' ↔ opening = some .leftBracket

theorem begins_wordPart {c : Char} (h : Lexer.isWordPart c = true) : Begins none c := by
  refine ⟨?_, ?_, ?_⟩
  · unfold Lipi.calm
    simp only [Bool.and_eq_true, bne_iff_ne]
    refine ⟨⟨?_, ?_⟩, ?_⟩ <;> (rintro rfl; revert h; decide)
  · constructor
    · rintro rfl
      revert h
      decide
    · intro hnone
      cases hnone
  · constructor
    · rintro rfl
      revert h
      decide
    · intro hnone
      cases hnone

theorem begins_word {w : String} (h : IsWord w) (rest : List Char) :
    ∃ c cs, w.toList ++ rest = c :: cs ∧ Begins none c := by
  obtain ⟨c, cs, hcons, hstart, _⟩ := h
  exact ⟨c, cs ++ rest, by rw [hcons]; rfl,
    begins_wordPart (Item.isWordPart_of_isWordStart hstart)⟩

theorem begins_minus : Begins (some .minus) '-' :=
  ⟨by decide, by decide, by decide⟩

theorem begins_bang : Begins (some .bang) '!' :=
  ⟨by decide, by decide, by decide⟩

theorem begins_leftParen : Begins (some .leftParen) '(' :=
  ⟨by decide, by decide, by decide⟩

theorem begins_leftBracket : Begins (some .leftBracket) '[' :=
  ⟨by decide, by decide, by decide⟩

theorem literal_begins {value : Literal} (h : value.WellFormed) (rest : List Char) :
    ∃ c cs, value.text.toList ++ rest = c :: cs ∧ Begins none c := by
  cases value with
  | number x =>
      obtain ⟨bits, hbits, rfl⟩ := h
      obtain ⟨whole, fraction, htext, hwhole, _⟩ := Number.read?_text hbits
      obtain ⟨d, ds, rfl⟩ := List.exists_cons_of_ne_nil hwhole.nonempty
      -- a numeral starts with a digit
      have hd := isWordPart_of_isDigit (hwhole.digit d List.mem_cons_self)
      show ∃ c cs, (Number.text _).toList ++ rest = c :: cs ∧ _
      rw [htext]
      cases fraction with
      | nil => exact ⟨d, _, by rw [Number.numeral_nil]; rfl, begins_wordPart hd⟩
      | cons e es => exact ⟨d, _, by rw [Number.numeral_cons]; rfl, begins_wordPart hd⟩
  | string s =>
      show ∃ c cs, (Text.quote s).toList ++ rest = c :: cs ∧ _
      unfold Text.quote
      rw [String.toList_ofList]
      exact ⟨'"', _, rfl, by decide, by decide, by decide⟩
  | bool b =>
      cases b with
      | true => exact begins_word (isWord_spelling .sahi) rest
      | false => exact begins_word (isWord_spelling .galat) rest
  | null => exact begins_word (isWord_spelling .khali) rest

/-- **The first character of an expression.** -/
theorem text_begins (rest : List Char) :
    (e : Expr) → e.WellFormed → ∃ c cs, e.text.toList ++ rest = c :: cs ∧ Begins e.opening c
  | literal value _, h => literal_begins h rest
  | identifier name _, h => begins_word h.isWord rest
  | unary op operand _, _ => by
      rw [text, String.toList_append, List.append_assoc]
      cases op with
      | negate => exact ⟨'-', _, rfl, begins_minus⟩
      | not => exact ⟨'!', _, rfl, begins_bang⟩
  | binary op left right _, h => by
      simp only [text, String.toList_append, List.append_assoc]
      exact text_begins _ left h.1.2
  | assign target value _, h => by
      simp only [text, String.toList_append, List.append_assoc]
      exact text_begins _ target h.1.2
  | call callee arguments _, h => by
      simp only [text, String.toList_append, List.append_assoc]
      exact text_begins _ callee h.1.2
  | member object name _, h => by
      simp only [text, String.toList_append, List.append_assoc]
      exact text_begins _ object h.1.2
  | index object key _, h => by
      simp only [text, String.toList_append, List.append_assoc]
      exact text_begins _ object h.1.2
  | array elements _, _ => by
      simp only [text, String.toList_append, List.append_assoc]
      exact ⟨'[', _, rfl, begins_leftBracket⟩
  | receiver _, _ => begins_word (isWord_spelling .yeh) rest
  | super _, _ => begins_word (isWord_spelling .upar) rest
  | new className arguments _, _ => by
      simp only [text, String.toList_append, List.append_assoc]
      exact begins_word (isWord_spelling .naya) _
  | grouping inner _, _ => by
      simp only [text, String.toList_append, List.append_assoc]
      exact ⟨'(', _, rfl, begins_leftParen⟩

/-- An item as the first one of an expression. -/
structure Leads (opening : Option Sign) (before : List Char) (i : Item) : Prop where
  before : i.before = before
  starts : i.kind.startsExpr = true
  sign : ∀ s, i.kind = .sign s ↔ opening = some s

theorem leads_sign (before : List Char) {s : Sign} (h : (TokenKind.sign s).startsExpr = true) :
    Leads (some s) before (.sign before s) := by
  refine ⟨rfl, h, fun s' => ?_⟩
  show TokenKind.sign s = .sign s' ↔ _
  rw [TokenKind.sign.injEq, Option.some.injEq]

/-- A token that is no sign is the first one of an expression that starts with no sign. -/
theorem leads_token (before : List Char) {kind : TokenKind} (lexeme : String)
    (hstarts : kind.startsExpr = true) (hsign : ∀ s, kind ≠ .sign s) :
    Leads none before ⟨before, kind, lexeme⟩ := by
  refine ⟨rfl, hstarts, fun s => ?_⟩
  simp [hsign s]

theorem leads_keyword (before : List Char) {k : Keyword}
    (h : (TokenKind.keyword k).startsExpr = true) : Leads none before (.keyword before k) :=
  leads_token before _ h (fun _ => TokenKind.noConfusion)

theorem leads_literal (before : List Char) (value : Literal) :
    Leads none before (value.item before) := by
  cases value with
  | number x => exact leads_token before _ rfl (fun _ => TokenKind.noConfusion)
  | string s => exact leads_token before _ rfl (fun _ => TokenKind.noConfusion)
  | bool b =>
      cases b with
      | true => exact leads_keyword before rfl
      | false => exact leads_keyword before rfl
  | null => exact leads_keyword before rfl

theorem leads_name (before : List Char) {name : String} (h : IsName name) :
    Leads none before (.word before name) := by
  unfold Item.word
  rw [h.wordKind]
  exact leads_token before _ rfl (fun _ => TokenKind.noConfusion)

theorem leads_append {e : Expr} {before : List Char} {opening : Option Sign}
    (h : ∃ i is, e.items before = i :: is ∧ Leads opening before i) (js : List Item) :
    ∃ i is, e.items before ++ js = i :: is ∧ Leads opening before i := by
  obtain ⟨i, is, hcons, hleads⟩ := h
  exact ⟨i, is ++ js, by rw [hcons]; rfl, hleads⟩

/-- **The first item of an expression.** -/
theorem items_lead (before : List Char) :
    (e : Expr) → e.WellFormed → ∃ i is, e.items before = i :: is ∧ Leads e.opening before i
  | literal value _, _ => ⟨_, [], rfl, leads_literal before value⟩
  | identifier name _, h => ⟨_, [], rfl, leads_name before h⟩
  | unary op operand _, _ => by
      refine ⟨_, _, rfl, leads_sign before ?_⟩
      cases op <;> rfl
  | binary _ left _ _, h => leads_append (items_lead before left h.1.2) _
  | assign target _ _, h => leads_append (items_lead before target h.1.2) _
  | call callee _ _, h => leads_append (items_lead before callee h.1.2) _
  | member object _ _, h => leads_append (items_lead before object h.1.2) _
  | index object _ _, h => leads_append (items_lead before object h.1.2) _
  | array _ _, _ => ⟨_, _, rfl, leads_sign before rfl⟩
  | receiver _, _ => ⟨_, [], rfl, leads_keyword before rfl⟩
  | super _, _ => ⟨_, [], rfl, leads_keyword before rfl⟩
  | new _ _ _, _ => ⟨_, _, rfl, leads_keyword before rfl⟩
  | grouping _ _, _ => ⟨_, _, rfl, leads_sign before rfl⟩

mutual

/-- An expression has no fewer items than it is deep. -/
theorem depth_le_length (before : List Char) : (e : Expr) → e.depth ≤ (e.items before).length
  | literal _ _ | identifier _ _ | receiver _ | super _ => Nat.le_refl 1
  | unary _ operand _ => by
      have hoperand := depth_le_length [] operand
      rw [depth, items, List.length_cons]
      omega
  | binary _ left right _ => by
      have hleft := depth_le_length before left
      have hright := depth_le_length [' '] right
      rw [depth, items, List.length_append, List.length_cons]
      omega
  | assign target value _ => by
      have htarget := depth_le_length before target
      have hvalue := depth_le_length [' '] value
      rw [depth, items, List.length_append, List.length_cons]
      omega
  | call callee arguments _ => by
      have hcallee := depth_le_length before callee
      have harguments := depthAll_le_length [] arguments
      rw [depth, items, List.length_append, List.length_cons, List.length_append]
      omega
  | member object _ _ => by
      have hobject := depth_le_length before object
      rw [depth, items, List.length_append, List.length_cons]
      omega
  | index object key _ => by
      have hobject := depth_le_length before object
      have hkey := depth_le_length [] key
      rw [depth, items, List.length_append, List.length_cons, List.length_append]
      omega
  | array elements _ => by
      have helements := depthAll_le_length [] elements
      rw [depth, items, List.length_cons, List.length_append]
      omega
  | new _ arguments _ => by
      have harguments := depthAll_le_length [] arguments
      rw [depth, items, List.length_cons, List.length_cons, List.length_cons, List.length_append]
      omega
  | grouping inner _ => by
      have hinner := depth_le_length [] inner
      rw [depth, items, List.length_cons, List.length_append]
      omega

theorem depthAll_le_length (before : List Char) :
    (es : List Expr) → depthAll es ≤ (itemsList before es).length
  | [] => Nat.le_refl 0
  | [e] => by
      have he := depth_le_length before e
      rw [depthAll, depthAll, itemsList]
      omega
  | e :: e' :: es => by
      have he := depth_le_length before e
      have hrest := depthAll_le_length [' '] (e' :: es)
      rw [itemsList_cons_cons, List.length_append, List.length_cons, depthAll]
      omega

end

/-! ## Items are told apart -/

theorem blank_nil : ∀ c ∈ ([] : List Char), Lexer.isBlank c = true :=
  List.all_eq_true.mp rfl

theorem blank_space : ∀ c ∈ [' '], Lexer.isBlank c = true :=
  List.all_eq_true.mp rfl

theorem literal_lexes {before : List Char} (hbefore : ∀ c ∈ before, Lexer.isBlank c = true)
    {value : Literal} (h : value.WellFormed) {rest : List Char} (hrest : ends rest = true) :
    (value.item before).Lexes rest := by
  cases value with
  | number x =>
      obtain ⟨bits, hbits, rfl⟩ := h
      exact Item.lexes_number hbefore hbits hrest
  | string s => exact Item.lexes_string hbefore s rest
  | bool b => cases b <;> exact Item.lexes_keyword hbefore _ hrest
  | null => exact Item.lexes_keyword hbefore _ hrest

theorem operator_lexes (op : BinaryOp) {rest : List Char} (hrest : ends rest = true) :
    (op.item [' ']).Lexes rest := by
  have hcalm := calm_of_ends hrest
  cases op with
  | and => exact Item.lexes_keyword blank_space _ hrest
  | or => exact Item.lexes_keyword blank_space _ hrest
  | _ => exact Item.lexes_sign blank_space _ hcalm

/-- No sign directly in front of an expression goes on with it. -/
theorem calm_items {e : Expr} (h : e.WellFormed) (rest : List Char) :
    calm (Item.text (e.items []) ++ rest) = true := by
  obtain ⟨c, cs, hcons, hbegins⟩ := text_begins rest e h
  rw [text_items, List.nil_append, hcons]
  exact hbegins.calm

theorem calm_itemsList {es : List Expr} (h : AllWellFormed es) {rest : List Char}
    (hrest : calm rest = true) : calm (Item.text (itemsList [] es) ++ rest) = true := by
  match es, h with
  | [], _ => exact hrest
  | [e], h => exact calm_items h.1 rest
  | e :: e' :: es, h =>
      rw [itemsList_cons_cons, Item.text_append, List.append_assoc]
      exact calm_items h.1 _

/-- A blank in front of an expression ends the token in front of the blank. -/
theorem ends_items (e : Expr) (rest : List Char) :
    ends (Item.text (e.items [' ']) ++ rest) = true := by
  rw [text_items]
  exact ends_cons (by decide) _

theorem ends_rightParen (rest : List Char) :
    ends (Sign.rightParen.spelling.toList ++ rest) = true :=
  ends_cons (by decide) rest

theorem ends_rightBracket (rest : List Char) :
    ends (Sign.rightBracket.spelling.toList ++ rest) = true :=
  ends_cons (by decide) rest

/-- Expressions between brackets, once the expressions are told apart. -/
theorem lexAll_enclosed {before : List Char} (hbefore : ∀ c ∈ before, Lexer.isBlank c = true)
    (opening : Sign) {closing : Sign} {rest : List Char} (hrest : ends rest = true)
    (hclosing : ends (closing.spelling.toList ++ rest) = true) (es : List Expr)
    (hes : AllWellFormed es)
    (hlex : Item.LexAll (itemsList [] es) (closing.spelling.toList ++ rest)) :
    Item.LexAll (.sign before opening :: (itemsList [] es ++ [.sign [] closing])) rest := by
  have hclose : Item.text [.sign [] closing] ++ rest = closing.spelling.toList ++ rest := by
    rw [Item.text_cons, Item.text_nil, List.append_nil]
    rfl
  refine ⟨Item.lexes_sign hbefore opening ?_, Item.lexAll_append.mpr ⟨?_, ?_, trivial⟩⟩
  -- the opening bracket is not the first half of a longer sign
  · rw [Item.text_append, List.append_assoc, hclose]
    exact calm_itemsList hes (calm_of_ends hclosing)
  · rw [hclose]
    exact hlex
  · exact Item.lexes_sign blank_nil closing (calm_of_ends hrest)

mutual

/-- **The items of a well-formed expression are told apart.** -/
theorem lexAll_items {rest : List Char} (hrest : ends rest = true) {before : List Char}
    (hbefore : ∀ c ∈ before, Lexer.isBlank c = true) :
    (e : Expr) → e.WellFormed → Item.LexAll (e.items before) rest
  | literal value _, h => ⟨literal_lexes hbefore h hrest, trivial⟩
  | identifier name _, h => ⟨Item.lexes_word hbefore h.isWord hrest, trivial⟩
  | unary op operand _, h =>
    ⟨Item.lexes_sign hbefore _ (calm_items h.2 rest), lexAll_items hrest blank_nil operand h.2⟩
  | binary op left right _, h => by
      obtain ⟨⟨_, hleft⟩, _, hright⟩ := h
      refine Item.lexAll_append.mpr ⟨lexAll_items ?_ hbefore left hleft, ?_, ?_⟩
      · rw [Item.text_cons, (BinaryOp.text_item [' '] op).1]
        exact ends_cons (by decide) _
      · exact operator_lexes op (ends_items right rest)
      · exact lexAll_items hrest blank_space right hright
  | assign target value _, h => by
      obtain ⟨⟨_, htarget⟩, hvalue⟩ := h
      refine Item.lexAll_append.mpr ⟨lexAll_items ?_ hbefore target htarget, ?_, ?_⟩
      · exact ends_cons (by decide) _
      · exact Item.lexes_sign blank_space _ (calm_of_ends (ends_items value rest))
      · exact lexAll_items hrest blank_space value hvalue
  | call callee arguments _, h => by
      obtain ⟨⟨_, hcallee⟩, harguments⟩ := h
      refine Item.lexAll_append.mpr ⟨lexAll_items (ends_cons (by decide) _) hbefore callee hcallee, ?_⟩
      exact lexAll_enclosed blank_nil _ hrest (ends_rightParen rest) arguments harguments
        (lexAll_itemsList (ends_rightParen rest) blank_nil arguments harguments)
  | member object name _, h => by
      obtain ⟨⟨_, hobject⟩, hname⟩ := h
      -- a point with a letter behind it does not go on with a numeral in front of it
      have hdot : ends ('.' :: (name.toList ++ rest)) = true := by
        obtain ⟨c, cs, hcons, hstart, _⟩ := hname
        rw [hcons]
        exact hstart
      have hcalm : calm (Item.text [.word [] name] ++ rest) = true := by
        obtain ⟨c, cs, hcons, hbegins⟩ := begins_word hname rest
        have htext : Item.text [.word [] name] ++ rest = name.toList ++ rest := by
          rw [Item.text_cons, Item.text_nil, List.append_nil]
          rfl
        rw [htext, hcons]
        exact hbegins.calm
      refine Item.lexAll_append.mpr ⟨lexAll_items ?_ hbefore object hobject, ?_, ?_, trivial⟩
      · rw [Item.text_cons, Item.text_cons, Item.text_nil, List.append_nil]
        exact hdot
      · exact Item.lexes_sign blank_nil _ hcalm
      · exact Item.lexes_word blank_nil hname hrest
  | index object key _, h => by
      obtain ⟨⟨_, hobject⟩, hkey⟩ := h
      refine Item.lexAll_append.mpr ⟨lexAll_items (ends_cons (by decide) _) hbefore object hobject, ?_⟩
      exact lexAll_enclosed blank_nil _ hrest (ends_rightBracket rest) [key] ⟨hkey, trivial⟩
        (lexAll_items (ends_rightBracket rest) blank_nil key hkey)
  | array elements _, h =>
    lexAll_enclosed hbefore _ hrest (ends_rightBracket rest) elements h
      (lexAll_itemsList (ends_rightBracket rest) blank_nil elements h)
  | receiver _, _ => ⟨Item.lexes_keyword hbefore _ hrest, trivial⟩
  | super _, _ => ⟨Item.lexes_keyword hbefore _ hrest, trivial⟩
  | new className arguments _, h => by
      refine ⟨Item.lexes_keyword hbefore _ ?_, Item.lexes_word blank_space h.1.isWord ?_, ?_⟩
      · exact ends_cons (by decide) _
      · exact ends_cons (by decide) _
      · exact lexAll_enclosed blank_nil _ hrest (ends_rightParen rest) arguments h.2
          (lexAll_itemsList (ends_rightParen rest) blank_nil arguments h.2)
  | grouping inner _, h =>
    lexAll_enclosed hbefore _ hrest (ends_rightParen rest) [inner] ⟨h, trivial⟩
      (lexAll_items (ends_rightParen rest) blank_nil inner h)

theorem lexAll_itemsList {rest : List Char} (hrest : ends rest = true) {before : List Char}
    (hbefore : ∀ c ∈ before, Lexer.isBlank c = true) :
    (es : List Expr) → AllWellFormed es → Item.LexAll (itemsList before es) rest
  | [], _ => trivial
  | [e], h => lexAll_items hrest hbefore e h.1
  | e :: e' :: es, h => by
      rw [itemsList_cons_cons]
      -- every element but the first has a blank in front of it
      have hcomma : ends (Item.text (itemsList [' '] (e' :: es)) ++ rest) = true := by
        rw [text_itemsList, if_neg (List.cons_ne_nil _ _)]
        exact ends_cons (by decide) _
      refine Item.lexAll_append.mpr ⟨lexAll_items ?_ hbefore e h.1, ?_, ?_⟩
      · exact ends_cons (by decide) _
      · exact Item.lexes_sign blank_nil _ (calm_of_ends hcomma)
      · exact lexAll_itemsList hrest blank_space (e' :: es) h.2

end

end Expr

end Lipi
