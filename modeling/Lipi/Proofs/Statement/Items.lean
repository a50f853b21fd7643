import Lipi.Proofs.Expr.ReadBack
import Lipi.Proofs.Statement.WellFormed

set_option autoImplicit false

/-! # The items of a statement

The canonical text of statements, cut into its tokens. A newline and the blanks of the next line
belong to the token behind them, so that **the lines of a body are items that each start a line**, and
the newline behind the last line belongs to the closing brace.
-/

namespace Lipi

namespace Statement

/-! ## Pieces of text -/

/-- A new line at a nesting depth. -/
def newline (depth : Nat) : List Char :=
  '\n' :: (indent depth).toList

/-- The items of a list of names. -/
def nameItems (before : List Char) (names : List String) : List Item :=
  Item.separated (fun b name => [.word b name]) before names

/-- A body between braces. -/
def braced (before : List Char) (depth : Nat) (lines : List Item) : List Item :=
  .sign before .leftBrace ::
    (lines ++ [.sign (if lines.isEmpty then [] else newline depth) .rightBrace])

/-- A list of names between braces, with blanks inside. -/
def nameBraces (names : List String) : List Item :=
  .sign [' '] .leftBrace :: (nameItems [' '] names ++
    [.sign (if names.isEmpty then [' ', ' '] else [' ']) .rightBrace])

/-- The keywords in front of a method. -/
def modifierWords (access : Access) (isStatic : Bool) : List Keyword :=
  (match access with
    | .sabka => []
    | .niji => [.niji]
    | .surakshit => [.surakshit])
    ++ (if isStatic then [.sthir] else [])

/-- A word behind keywords. -/
def wordBehind (before : List Char) (name : String) : List Keyword → List Item
  | [] => [.word before name]
  | k :: ks => .keyword before k :: wordBehind [' '] name ks

/-- The word by which a method is declared. -/
def methodWord (isConstructor : Bool) (name : String) : String :=
  if isConstructor then "nirmaan" else name

/-- The superclass of a class. -/
def superclassItems : Option String → List Item
  | some parent => [.keyword [' '] .virasat, .word [' '] parent]
  | none => []

mutual

/-- The items of a statement, with the given blanks in front of the first one. -/
def items (depth : Nat) (before : List Char) : Statement → List Item
  | binding constant name initializer _ =>
    .keyword before (if constant then .pakka else .rakho) :: .word [' '] name ::
      .sign [' '] .equal :: (initializer.items [' '] ++ [.sign [] .semicolon])
  | function name parameters body _ =>
    .keyword before .kaam :: .word [' '] name :: .sign [] .leftParen ::
      (nameItems [] parameters ++ .sign [] .rightParen ::
        braced [' '] depth (lineItems (depth + 1) body))
  | classDecl name superclass methods _ =>
    .keyword before .kaksha :: .word [' '] name :: (superclassItems superclass ++
      braced [' '] depth (methodItems (depth + 1) methods))
  | conditional condition thenBranch none _ =>
    .keyword before .agar :: ((Expr.grouping condition .start).items [' '] ++
      thenBranch.items depth [' '])
  | conditional condition thenBranch (some elseBranch) _ =>
    .keyword before .agar :: ((Expr.grouping condition .start).items [' '] ++
      (thenBranch.items depth [' '] ++ .keyword [' '] .warna :: elseBranch.items depth [' ']))
  | loop condition body _ =>
    .keyword before .jabtak :: ((Expr.grouping condition .start).items [' '] ++
      body.items depth [' '])
  | giveBack (some value) _ =>
    .keyword before .wapas :: (value.items [' '] ++ [.sign [] .semicolon])
  | giveBack none _ => [.keyword before .wapas, .sign [] .semicolon]
  | print value _ => .keyword before .chaap :: (value.items [' '] ++ [.sign [] .semicolon])
  | block statements _ => braced before depth (lineItems (depth + 1) statements)
  | expression expr _ => expr.items before ++ [.sign [] .semicolon]
  | empty _ => [.sign before .semicolon]
  | importNames names source _ =>
    .keyword before .lao :: (nameBraces names ++
      [.keyword [' '] .se, .string [' '] source, .sign [] .semicolon])
  | exportDecl declaration _ => .keyword before .bhejo :: declaration.items depth [' ']
  | exportNames names _ =>
    .keyword before .bhejo :: (nameBraces names ++ [.sign [] .semicolon])

/-- The lines of statements at a nesting depth. -/
def lineItems (depth : Nat) : List Statement → List Item
  | [] => []
  | s :: ss => s.items depth (newline depth) ++ lineItems depth ss

/-- The lines of methods at a nesting depth. -/
def methodItems (depth : Nat) : List Method → List Item
  | [] => []
  | .mk access isStatic isConstructor name parameters body _ :: ms =>
    wordBehind (newline depth) (methodWord isConstructor name) (modifierWords access isStatic) ++
      .sign [] .leftParen :: (nameItems [] parameters ++ .sign [] .rightParen ::
        (braced [' '] depth (lineItems (depth + 1) body) ++ methodItems depth ms))

end

/-! ## The items make up the text -/

theorem text_nameItems (before : List Char) (names : List String) :
    Item.text (nameItems before names)
      = (if names.isEmpty then [] else before) ++ (nameList names).toList := by
  unfold nameItems nameList
  induction names generalizing before with
  | nil => simp [Item.separated]
  | cons x xs ih =>
      cases xs with
      | nil => simp [Item.separated, Item.word]
      | cons y ys =>
          have hrest := ih [' ']
          rw [Item.separated_cons_cons, Item.text_append, Item.text_cons (.sign [] .comma), hrest]
          simp [Item.sign, Item.word, Sign.spelling]

theorem text_nameBraces (names : List String) :
    Item.text (nameBraces names) = " \x7b ".toList ++ (nameList names).toList ++ " \x7d".toList := by
  unfold nameBraces
  rw [Item.text_cons, Item.text_append, text_nameItems]
  cases names with
  | nil => rfl
  | cons x xs => simp [Item.sign, Sign.spelling]

theorem text_wordBehind (before : List Char) (name : String) (ks : List Keyword) :
    Item.text (wordBehind before name ks)
      = before ++ (ks.flatMap fun k => k.spelling.toList ++ [' ']) ++ name.toList := by
  induction ks generalizing before with
  | nil => simp [wordBehind, Item.word]
  | cons k ks ih =>
      rw [wordBehind, Item.text_cons, ih]
      simp [Item.keyword]

theorem toList_modifiers (access : Access) (isStatic : Bool) :
    (modifiers access isStatic).toList
      = (modifierWords access isStatic).flatMap fun k => k.spelling.toList ++ [' '] := by
  cases access <;> cases isStatic <;> rfl

/-- The text of a body between braces, from its lines. -/
theorem text_braced (before : List Char) (depth : Nat) {is : List Item} {lines : String}
    (htext : Item.text is ++ ['\n'] = '\n' :: lines.toList) (hempty : is.isEmpty = lines.isEmpty) :
    Item.text (braced before depth is) = before ++ (braces depth lines).toList := by
  unfold braced braces
  rw [Item.text_cons, Item.text_append, Item.text_cons, Item.text_nil, hempty]
  cases hlines : lines.isEmpty with
  | true =>
      have hnone : is = [] := by
        rw [hlines, List.isEmpty_iff] at hempty
        exact hempty
      subst hnone
      simp [Item.sign, Sign.spelling]
  | false =>
      -- the newline in front of each line is moved behind the line
      have hshift : ∀ rest, Item.text is ++ ('\n' :: rest) = '\n' :: (lines.toList ++ rest) := by
        intro rest
        calc Item.text is ++ ('\n' :: rest) = (Item.text is ++ ['\n']) ++ rest := by simp
          _ = '\n' :: (lines.toList ++ rest) := by rw [htext]; rfl
      simp only [Item.sign, Sign.spelling, newline, Bool.false_eq_true, if_false, List.cons_append,
        hshift]
      simp

theorem items_ne_nil (depth : Nat) (before : List Char) (t : Statement) :
    t.items depth before ≠ [] := by
  cases t using shapes <;> simp [items, braced]

theorem isEmpty_eq_false_of_newline {a b : String} : (a ++ "\n" ++ b).isEmpty = false := by
  rw [Bool.eq_false_iff, ne_eq, String.isEmpty_iff]
  intro h
  have hchars := congrArg String.toList h
  simp at hchars

theorem isEmpty_lineItems (depth : Nat) (ss : List Statement) :
    (lineItems depth ss).isEmpty = (linesAt depth ss).isEmpty := by
  cases ss with
  | nil => rfl
  | cons s ss =>
      have hitems : (lineItems depth (s :: ss)).isEmpty = false := by
        rw [lineItems, List.isEmpty_eq_false_iff]
        exact List.append_ne_nil_of_left_ne_nil (items_ne_nil depth _ s) _
      rw [hitems, linesAt, isEmpty_eq_false_of_newline]

theorem isEmpty_methodItems (depth : Nat) (ms : List Method) :
    (methodItems depth ms).isEmpty = (methodLinesAt depth ms).isEmpty := by
  cases ms with
  | nil => rfl
  | cons m ms =>
      obtain ⟨access, isStatic, isConstructor, name, parameters, body, pos⟩ := m
      rw [methodLinesAt, isEmpty_eq_false_of_newline]
      simp [methodItems]

mutual

/-- **The items of a statement make up its text.** -/
theorem text_items (depth : Nat) (before : List Char) :
    (t : Statement) → Item.text (t.items depth before) = before ++ (textAt depth t).toList
  | binding constant name initializer _ => by
      cases constant <;>
        simp [items, textAt, Item.keyword, Item.word, Item.sign, Keyword.spelling, Sign.spelling,
          Expr.text_items]
  | function name parameters body _ => by
      have hbody := text_braced [' '] depth (text_lineItems (depth + 1) body)
        (isEmpty_lineItems (depth + 1) body)
      simp [items, textAt, Item.keyword, Item.word, Item.sign, Keyword.spelling, Sign.spelling,
        text_nameItems, hbody]
  | classDecl name superclass methods _ => by
      have hmethods := text_braced [' '] depth (text_methodItems (depth + 1) methods)
        (isEmpty_methodItems (depth + 1) methods)
      cases superclass <;>
        simp [items, textAt, superclassItems, Item.keyword, Item.word, Keyword.spelling, hmethods]
  | conditional condition thenBranch none _ => by
      simp [items, textAt, Expr.text_items, Expr.text, Item.keyword, Keyword.spelling,
        text_items depth [' '] thenBranch]
  | conditional condition thenBranch (some elseBranch) _ => by
      simp [items, textAt, Expr.text_items, Expr.text, Item.keyword, Keyword.spelling,
        text_items depth [' '] thenBranch, text_items depth [' '] elseBranch]
  | loop condition body _ => by
      simp [items, textAt, Expr.text_items, Expr.text, Item.keyword, Keyword.spelling,
        text_items depth [' '] body]
  | giveBack (some value) _ => by
      simp [items, textAt, Expr.text_items, Item.keyword, Item.sign, Keyword.spelling,
        Sign.spelling]
  | giveBack none _ => by
      simp [items, textAt, Item.keyword, Item.sign, Keyword.spelling, Sign.spelling]
  | print value _ => by
      simp [items, textAt, Expr.text_items, Item.keyword, Item.sign, Keyword.spelling,
        Sign.spelling]
  | block statements _ =>
    text_braced before depth (text_lineItems (depth + 1) statements)
      (isEmpty_lineItems (depth + 1) statements)
  | expression expr _ => by
      simp [items, textAt, Expr.text_items, Item.sign, Sign.spelling]
  | empty _ => by
      simp [items, textAt, Item.sign, Sign.spelling]
  | importNames names source _ => by
      simp [items, textAt, text_nameBraces, Item.keyword, Item.string, Item.sign, Keyword.spelling,
        Sign.spelling]
  | exportDecl declaration _ => by
      simp [items, textAt, Item.keyword, Keyword.spelling, text_items depth [' '] declaration]
  | exportNames names _ => by
      simp [items, textAt, text_nameBraces, Item.keyword, Item.sign, Keyword.spelling,
        Sign.spelling]

/-- Every line starts with its newline instead of ending with it. -/
theorem text_lineItems (depth : Nat) : (ss : List Statement) →
    Item.text (lineItems depth ss) ++ ['\n'] = '\n' :: (linesAt depth ss).toList
  | [] => rfl
  | s :: ss => by
      rw [lineItems, Item.text_append, text_items depth (newline depth) s, List.append_assoc,
        text_lineItems depth ss]
      simp [linesAt, newline]

theorem text_methodItems (depth : Nat) : (ms : List Method) →
    Item.text (methodItems depth ms) ++ ['\n'] = '\n' :: (methodLinesAt depth ms).toList
  | [] => rfl
  | .mk access isStatic isConstructor name parameters body _ :: ms => by
      have hbody := text_braced [' '] depth (text_lineItems (depth + 1) body)
        (isEmpty_lineItems (depth + 1) body)
      have hrest := text_methodItems depth ms
      simp only [methodItems, Item.text_append, Item.text_cons, hbody, text_wordBehind,
        text_nameItems, List.append_assoc, hrest]
      simp [methodLinesAt, newline, toList_modifiers, methodWord, Item.sign, Sign.spelling]

end

/-! ## How a statement starts -/

/-- An item as the first one of a statement. -/
structure Leads (opening : Option Sign) (before : List Char) (i : Item) : Prop where
  before : i.before = before
  starts : i.kind.startsStatement = true ∨ i.kind.startsExpr = true ∨
    i.kind = .sign .leftBrace ∨ i.kind = .sign .semicolon
  sign : ∀ s, i.kind = .sign s → s = .leftBrace ∨ s = .semicolon ∨ opening = some s
  opens : ∀ s, opening = some s → i.kind = .sign s

theorem leads_keyword (before : List Char) {k : Keyword} (h : k.startsStatement = true)
    (is : List Item) : ∃ i js, Item.keyword before k :: is = i :: js ∧ Leads none before i :=
  ⟨_, is, rfl, rfl, Or.inl h, fun _ => TokenKind.noConfusion, nofun⟩

/-- **The first item of a statement.** -/
theorem items_lead {topLevel : Bool} (depth : Nat) (before : List Char) (t : Statement)
    (h : t.WellFormed topLevel) :
    ∃ i is, t.items depth before = i :: is ∧ Leads t.opening before i := by
  cases t using shapes with
  | binding constant => cases constant <;> exact leads_keyword before rfl _
  | block =>
      refine ⟨_, _, rfl, rfl, Or.inr (Or.inr (Or.inl rfl)), ?_, nofun⟩
      intro s hs
      exact Or.inl (TokenKind.sign.inj hs).symm
  | empty =>
      refine ⟨_, _, rfl, rfl, Or.inr (Or.inr (Or.inr rfl)), ?_, nofun⟩
      intro s hs
      exact Or.inr (Or.inl (TokenKind.sign.inj hs).symm)
  | expression e pos =>
      obtain ⟨i, is, hcons, hleads⟩ := Expr.items_lead before e h
      refine ⟨i, is ++ [.sign [] .semicolon], ?_, hleads.before, Or.inr (Or.inl hleads.starts), ?_,
        fun s => (hleads.sign s).mpr⟩
      · rw [items, hcons]
        rfl
      · intro s hs
        exact Or.inr (Or.inr ((hleads.sign s).mp hs))
  | _ => exact leads_keyword before rfl _

namespace Leads

variable {o : Option Sign} {before : List Char} {i : Item}

/-- A statement starts neither with what ends a body nor with what goes on with a statement. -/
theorem kind_ne (h : Leads o before i) {kind : TokenKind}
    (hkind : kind = .eof ∨ kind = .sign .rightBrace ∨ kind = .keyword .khatam ∨
      kind = .keyword .shuru ∨ kind = .keyword .warna) : i.kind ≠ kind := by
  intro heq
  have hstarts := h.starts
  rw [heq] at hstarts
  rcases hkind with rfl | rfl | rfl | rfl | rfl <;>
    rcases hstarts with h | h | h | h <;> cases h

/-- A statement does not go on with the expression in front of it, unless it starts with a minus
sign or a bracket. -/
theorem closes (h : Leads o before i) (hminus : o ≠ some .minus) (hparen : o ≠ some .leftParen)
    (hbracket : o ≠ some .leftBracket) (is : List Item) : Expr.Closes (i :: is) := by
  -- the first token is one that starts a statement, so few signs are left
  have hsign : ∀ s, i.kind = .sign s → s = .leftBrace ∨ s = .semicolon ∨ s = .bang := by
    intro s hs
    rcases h.sign s hs with rfl | rfl | hopening
    · exact Or.inl rfl
    · exact Or.inr (Or.inl rfl)
    · have hstarts := h.starts
      rw [hs] at hstarts
      cases s with
      | minus => exact absurd hopening hminus
      | leftParen => exact absurd hopening hparen
      | leftBracket => exact absurd hopening hbracket
      | bang => exact Or.inr (Or.inr rfl)
      | leftBrace => exact Or.inl rfl
      | semicolon => exact Or.inr (Or.inl rfl)
      | _ => rcases hstarts with h | h | h | h <;> cases h
  refine ⟨Expr.stops_token is ?_ ?_, ?_⟩
  · intro op hop
    cases hkind : i.kind with
    | sign s =>
        rw [hkind] at hop
        rcases hsign s hkind with rfl | rfl | rfl <;> cases hop
    | keyword k =>
        have hstarts := h.starts
        rw [hkind] at hop hstarts
        cases k with
        | aur => rcases hstarts with h | h | h | h <;> cases h
        | ya => rcases hstarts with h | h | h | h <;> cases h
        | _ => cases hop
    | _ =>
        rw [hkind] at hop
        cases hop
  · rintro s hs hkind
    rcases hsign s hkind with rfl | rfl | rfl <;> rcases hs with h | h | h <;> cases h
  · intro hkind
    rcases hsign .equal hkind with h | h | h <;> cases h

end Leads

mutual

/-- A statement has no fewer items than it is deep. -/
theorem depth_le_length (depth : Nat) (before : List Char) :
    (t : Statement) → t.depth ≤ (t.items depth before).length
  | binding _ _ initializer _ => by
      have hvalue := Expr.depth_le_length [' '] initializer
      simp only [Statement.depth, items, List.length_cons, List.length_append]
      omega
  | function _ _ body _ => by
      have hbody := depthAll_le_length (depth + 1) body
      simp only [Statement.depth, items, braced, List.length_cons, List.length_append]
      omega
  | classDecl _ _ methods _ => by
      have hmethods := depthMethods_le_length (depth + 1) methods
      simp only [Statement.depth, items, braced, List.length_cons, List.length_append]
      omega
  | conditional condition thenBranch none _ => by
      have hcondition := Expr.depth_le_length [' '] (.grouping condition .start)
      have hthen := depth_le_length depth [' '] thenBranch
      simp only [Expr.depth] at hcondition
      simp only [Statement.depth, items, List.length_cons, List.length_append]
      omega
  | conditional condition thenBranch (some elseBranch) _ => by
      have hcondition := Expr.depth_le_length [' '] (.grouping condition .start)
      have hthen := depth_le_length depth [' '] thenBranch
      have helse := depth_le_length depth [' '] elseBranch
      simp only [Expr.depth] at hcondition
      simp only [Statement.depth, items, List.length_cons, List.length_append]
      omega
  | loop condition body _ => by
      have hcondition := Expr.depth_le_length [' '] (.grouping condition .start)
      have hbody := depth_le_length depth [' '] body
      simp only [Expr.depth] at hcondition
      simp only [Statement.depth, items, List.length_cons, List.length_append]
      omega
  | giveBack none _ => by simp [Statement.depth, items]
  | giveBack (some value) _ => by
      have hvalue := Expr.depth_le_length [' '] value
      simp only [Statement.depth, items, List.length_cons, List.length_append]
      omega
  | print value _ => by
      have hvalue := Expr.depth_le_length [' '] value
      simp only [Statement.depth, items, List.length_cons, List.length_append]
      omega
  | block statements _ => by
      have hbody := depthAll_le_length (depth + 1) statements
      simp only [Statement.depth, items, braced, List.length_cons, List.length_append]
      omega
  | expression expr _ => by
      have hvalue := Expr.depth_le_length before expr
      simp only [Statement.depth, items, List.length_cons, List.length_append]
      omega
  | empty _ => by simp [Statement.depth, items]
  | importNames _ _ _ => by simp [Statement.depth, items]
  | exportDecl declaration _ => by
      have hdeclaration := depth_le_length depth [' '] declaration
      simp only [Statement.depth, items, List.length_cons]
      omega
  | exportNames _ _ => by simp [Statement.depth, items]

theorem depthAll_le_length (depth : Nat) :
    (ss : List Statement) → depthAll ss ≤ (lineItems depth ss).length
  | [] => Nat.le_refl 0
  | s :: ss => by
      have hs := depth_le_length depth (newline depth) s
      have hss := depthAll_le_length depth ss
      simp only [depthAll, lineItems, List.length_append]
      omega

theorem depthMethods_le_length (depth : Nat) :
    (ms : List Method) → depthMethods ms ≤ (methodItems depth ms).length
  | [] => Nat.le_refl 0
  | .mk _ _ _ _ _ body _ :: ms => by
      have hbody := depthAll_le_length (depth + 1) body
      have hms := depthMethods_le_length depth ms
      simp only [depthMethods, methodItems, braced, List.length_append, List.length_cons]
      omega

end

/-- Every line has an item. -/
theorem length_le_lineItems (depth : Nat) (ss : List Statement) :
    ss.length ≤ (lineItems depth ss).length := by
  induction ss with
  | nil => exact Nat.le_refl 0
  | cons s ss ih =>
      have hpos := List.length_pos_of_ne_nil (items_ne_nil depth (newline depth) s)
      rw [lineItems, List.length_append, List.length_cons]
      omega

theorem length_le_methodItems (depth : Nat) (ms : List Method) :
    ms.length ≤ (methodItems depth ms).length := by
  induction ms with
  | nil => exact Nat.le_refl 0
  | cons m ms ih =>
      cases m
      simp only [methodItems, List.length_append, List.length_cons]
      omega

/-! ## Items are told apart -/

theorem blank_newline (depth : Nat) : ∀ c ∈ newline depth, Lexer.isBlank c = true := by
  intro c hc
  rcases List.mem_cons.mp hc with rfl | hc
  · decide
  · rw [indent, String.toList_ofList] at hc
    rw [List.eq_of_mem_replicate hc]
    decide

theorem lexAll_nameItems {before : List Char} (hbefore : ∀ c ∈ before, Lexer.isBlank c = true)
    {names : List String} (hnames : ∀ x ∈ names, IsName x) {rest : List Char}
    (hrest : ends rest = true) : Item.LexAll (nameItems before names) rest := by
  unfold nameItems
  induction names generalizing before with
  | nil => trivial
  | cons x xs ih =>
      have hx := (hnames x List.mem_cons_self).isWord
      have hxs : ∀ y ∈ xs, IsName y := fun y hy => hnames y (List.mem_cons_of_mem _ hy)
      cases xs with
      | nil => exact ⟨Item.lexes_word hbefore hx hrest, trivial⟩
      | cons y ys =>
          have hmore := ih Expr.blank_space hxs
          have hblank : ends (Item.text (nameItems [' '] (y :: ys)) ++ rest) = true := by
            rw [text_nameItems]
            exact ends_cons (by decide) _
          refine ⟨Item.lexes_word hbefore hx (ends_cons (by decide) _), ?_, hmore⟩
          exact Item.lexes_sign Expr.blank_nil _ (calm_of_ends hblank)

/-- No sign directly in front of a list of names goes on with it. -/
theorem calm_nameItems {names : List String} (hnames : ∀ x ∈ names, IsName x) {rest : List Char}
    (hrest : calm rest = true) : calm (Item.text (nameItems [] names) ++ rest) = true := by
  cases names with
  | nil => exact hrest
  | cons x xs =>
      obtain ⟨c, cs, hcons, hbegins⟩ :=
        Expr.begins_word (hnames x List.mem_cons_self).isWord []
      rw [List.append_nil] at hcons
      cases xs with
      | nil =>
          show calm (Item.text [.word [] x] ++ rest) = true
          rw [Item.text_cons]
          show calm (x.toList ++ [] ++ rest) = true
          rw [hcons]
          exact hbegins.calm
      | cons y ys =>
          unfold nameItems
          rw [Item.separated_cons_cons, List.singleton_append, Item.text_cons, List.append_assoc]
          show calm (x.toList ++ _ ++ rest) = true
          rw [hcons]
          exact hbegins.calm

/-- Names between parentheses. -/
theorem lexAll_parameters {names : List String} (hnames : ∀ x ∈ names, IsName x) {is : List Item}
    {rest : List Char} (his : Item.LexAll is rest) (hblank : ends (Item.text is ++ rest) = true) :
    Item.LexAll (.sign [] .leftParen :: (nameItems [] names ++ .sign [] .rightParen :: is)) rest := by
  have hclose : ends (Item.text (.sign [] .rightParen :: is) ++ rest) = true :=
    ends_cons (by decide) _
  refine ⟨Item.lexes_sign Expr.blank_nil _ ?_, Item.lexAll_append.mpr
    ⟨lexAll_nameItems Expr.blank_nil hnames hclose, ?_, his⟩⟩
  · rw [Item.text_append, List.append_assoc]
    exact calm_nameItems hnames (calm_of_ends hclose)
  · exact Item.lexes_sign Expr.blank_nil _ (calm_of_ends hblank)

theorem lexAll_nameBraces {names : List String} (hnames : ∀ x ∈ names, IsName x)
    {rest : List Char} (hrest : calm rest = true) : Item.LexAll (nameBraces names) rest := by
  have hclose : ends (Item.text [.sign (if names.isEmpty then [' ', ' '] else [' ']) .rightBrace]
      ++ rest) = true := by
    cases names.isEmpty <;> exact ends_cons (by decide) _
  have hopen : calm (Item.text (nameItems [' '] names ++
      [.sign (if names.isEmpty then [' ', ' '] else [' ']) .rightBrace]) ++ rest) = true := by
    rw [Item.text_append, text_nameItems]
    cases names with
    | nil => rfl
    | cons x xs => rfl
  refine ⟨Item.lexes_sign Expr.blank_space _ hopen, Item.lexAll_append.mpr
    ⟨lexAll_nameItems Expr.blank_space hnames hclose, Item.lexes_sign ?_ _ hrest, trivial⟩⟩
  split <;> exact List.all_eq_true.mp rfl

/-- No sign in front of a body goes on with its lines: they start with a newline. -/
theorem calm_lines {lines : List Item} (hstart : lines = [] ∨ ∃ cs, Item.text lines = '\n' :: cs)
    {rest : List Char} (hrest : calm rest = true) : calm (Item.text lines ++ rest) = true := by
  rcases hstart with rfl | ⟨cs, hcs⟩
  · exact hrest
  · rw [hcs]
    rfl

/-- A body between braces, once its lines are told apart. -/
theorem lexAll_braced {before : List Char} (hbefore : ∀ c ∈ before, Lexer.isBlank c = true)
    {depth : Nat} {lines : List Item} (hstart : lines = [] ∨ ∃ cs, Item.text lines = '\n' :: cs)
    {rest : List Char} (hrest : calm rest = true)
    (hlines : ∀ {rest}, calm rest = true → Item.LexAll lines rest) :
    Item.LexAll (braced before depth lines) rest := by
  -- the closing brace stands directly behind the opening one, or on a line of its own
  have hclose : calm (Item.text
      [.sign (if lines.isEmpty then [] else newline depth) .rightBrace] ++ rest) = true := by
    cases lines.isEmpty <;> simp [Item.sign, Sign.spelling, calm, newline]
  refine ⟨Item.lexes_sign hbefore _ ?_, Item.lexAll_append.mpr ⟨hlines hclose, ?_, trivial⟩⟩
  · rw [Item.text_append, List.append_assoc]
    exact calm_lines hstart hclose
  · refine Item.lexes_sign ?_ _ hrest
    split
    · exact Expr.blank_nil
    · exact blank_newline depth

theorem lineItems_start (depth : Nat) (ss : List Statement) :
    lineItems depth ss = [] ∨ ∃ cs, Item.text (lineItems depth ss) = '\n' :: cs := by
  cases ss with
  | nil => exact Or.inl rfl
  | cons s ss =>
      rw [lineItems, Item.text_append, text_items]
      exact Or.inr ⟨_, rfl⟩

theorem methodItems_start (depth : Nat) (ms : List Method) :
    methodItems depth ms = [] ∨ ∃ cs, Item.text (methodItems depth ms) = '\n' :: cs := by
  cases ms with
  | nil => exact Or.inl rfl
  | cons m ms =>
      obtain ⟨access, isStatic, isConstructor, name, parameters, body, pos⟩ := m
      rw [methodItems, Item.text_append, text_wordBehind]
      exact Or.inr ⟨_, rfl⟩

theorem lexAll_wordBehind {before : List Char} (hbefore : ∀ c ∈ before, Lexer.isBlank c = true)
    {name : String} (hname : IsWord name) (ks : List Keyword) {rest : List Char}
    (hrest : ends rest = true) : Item.LexAll (wordBehind before name ks) rest := by
  induction ks generalizing before with
  | nil => exact ⟨Item.lexes_word hbefore hname hrest, trivial⟩
  | cons k ks ih =>
      refine ⟨Item.lexes_keyword hbefore k ?_, ih Expr.blank_space⟩
      rw [text_wordBehind]
      exact ends_cons (by decide) _

theorem isWord_methodWord {isConstructor : Bool} {name : String}
    (h : MethodName isConstructor name) : IsWord (methodWord isConstructor name) := by
  cases isConstructor with
  | true => exact isWord_spelling .nirmaan
  | false => exact h.1

/-- A blank in front of a statement ends the token in front of the blank. -/
theorem ends_items (depth : Nat) (t : Statement) (rest : List Char) :
    ends (Item.text (t.items depth [' ']) ++ rest) = true := by
  rw [text_items]
  exact ends_cons (by decide) _

/-- An expression and the semicolon behind it. -/
theorem lexAll_terminated {before : List Char} (hbefore : ∀ c ∈ before, Lexer.isBlank c = true)
    {e : Expr} (he : e.WellFormed) {rest : List Char} (hrest : calm rest = true) :
    Item.LexAll (e.items before ++ [.sign [] .semicolon]) rest :=
  Item.lexAll_append.mpr ⟨Expr.lexAll_items (ends_cons (by decide) _) hbefore e he,
    Item.lexes_sign Expr.blank_nil _ hrest, trivial⟩

/-- A blank in front of an expression with more behind it. -/
theorem ends_expression (e : Expr) (is : List Item) (rest : List Char) :
    ends (Item.text (e.items [' '] ++ is) ++ rest) = true := by
  rw [Item.text_append, List.append_assoc]
  exact Expr.ends_items e _

mutual

/-- **The items of a well-formed statement are told apart.** -/
theorem lexAll_items {rest : List Char} (hrest : calm rest = true) {before : List Char}
    (hbefore : ∀ c ∈ before, Lexer.isBlank c = true) (depth : Nat) :
    (topLevel : Bool) → (t : Statement) → t.WellFormed topLevel →
      Item.LexAll (t.items depth before) rest
  | _, binding _ name initializer _, h =>
    ⟨Item.lexes_keyword hbefore _ (ends_cons (by decide) _),
      Item.lexes_word Expr.blank_space h.1.isWord (ends_cons (by decide) _),
      Item.lexes_sign Expr.blank_space _ (calm_of_ends (ends_expression initializer _ rest)),
      lexAll_terminated Expr.blank_space h.2 hrest⟩
  | _, function name parameters body _, h => by
      refine ⟨Item.lexes_keyword hbefore _ (ends_cons (by decide) _),
        Item.lexes_word Expr.blank_space h.1.isWord (ends_cons (by decide) _),
        lexAll_parameters h.2.1 ?_ (ends_cons (by decide) _)⟩
      exact lexAll_braced Expr.blank_space (lineItems_start _ body) hrest
        fun hrest => lexAll_lineItems hrest (depth + 1) false body h.2.2
  | _, classDecl name superclass methods _, h => by
      have hbody : Item.LexAll (braced [' '] depth (methodItems (depth + 1) methods)) rest :=
        lexAll_braced Expr.blank_space (methodItems_start (depth + 1) methods) hrest
          fun hrest => lexAll_methodItems hrest (depth + 1) methods h.2.2
      refine ⟨Item.lexes_keyword hbefore _ (ends_cons (by decide) _), ?_⟩
      cases superclass with
      | none => exact ⟨Item.lexes_word Expr.blank_space h.1.isWord (ends_cons (by decide) _), hbody⟩
      | some parent =>
          have hparent := (h.2.1 parent rfl).isWord
          exact ⟨Item.lexes_word Expr.blank_space h.1.isWord (ends_cons (by decide) _),
            Item.lexes_keyword Expr.blank_space _ (ends_cons (by decide) _),
            Item.lexes_word Expr.blank_space hparent (ends_cons (by decide) _), hbody⟩
  | _, conditional condition thenBranch none _, h =>
    ⟨Item.lexes_keyword hbefore _ (ends_expression _ _ rest), Item.lexAll_append.mpr
      ⟨Expr.lexAll_items (ends_items depth thenBranch rest) Expr.blank_space _ h.1,
        lexAll_items hrest Expr.blank_space depth false thenBranch h.2.1⟩⟩
  | _, conditional condition thenBranch (some elseBranch) _, h => by
      obtain ⟨⟨hcondition, hthen, _⟩, _, helse⟩ := h
      -- every part has a blank in front of it, which ends the part before
      refine ⟨Item.lexes_keyword hbefore _ (ends_expression _ _ rest), Item.lexAll_append.mpr
        ⟨Expr.lexAll_items ?_ Expr.blank_space _ hcondition, Item.lexAll_append.mpr
          ⟨lexAll_items ?_ Expr.blank_space depth false thenBranch hthen,
            Item.lexes_keyword Expr.blank_space _ (ends_items depth elseBranch rest),
            lexAll_items hrest Expr.blank_space depth false elseBranch helse⟩⟩⟩
      · rw [Item.text_append, List.append_assoc]
        exact ends_items depth thenBranch _
      · exact calm_of_ends (ends_cons (by decide) _)
  | _, loop condition body _, h =>
    ⟨Item.lexes_keyword hbefore _ (ends_expression _ _ rest), Item.lexAll_append.mpr
      ⟨Expr.lexAll_items (ends_items depth body rest) Expr.blank_space _ h.1,
        lexAll_items hrest Expr.blank_space depth false body h.2.1⟩⟩
  | _, giveBack none _, _ =>
    ⟨Item.lexes_keyword hbefore _ (ends_cons (by decide) _),
      Item.lexes_sign Expr.blank_nil _ hrest, trivial⟩
  | _, giveBack (some value) _, h =>
    ⟨Item.lexes_keyword hbefore _ (ends_expression value _ rest),
      lexAll_terminated Expr.blank_space h hrest⟩
  | _, print value _, h =>
    ⟨Item.lexes_keyword hbefore _ (ends_expression value _ rest),
      lexAll_terminated Expr.blank_space h hrest⟩
  | _, block statements _, h =>
    lexAll_braced hbefore (lineItems_start _ statements) hrest
      fun hrest => lexAll_lineItems hrest (depth + 1) false statements h
  | _, expression expr _, h => lexAll_terminated hbefore h hrest
  | _, empty _, _ => ⟨Item.lexes_sign hbefore _ hrest, trivial⟩
  | _, importNames names source _, h =>
    ⟨Item.lexes_keyword hbefore _ (ends_cons (by decide) _), Item.lexAll_append.mpr
      ⟨lexAll_nameBraces h.2 (calm_of_ends (ends_cons (by decide) _)),
        Item.lexes_keyword Expr.blank_space _ (ends_cons (by decide) _),
        Item.lexes_string Expr.blank_space source _, Item.lexes_sign Expr.blank_nil _ hrest,
        trivial⟩⟩
  | _, exportDecl declaration _, h =>
    ⟨Item.lexes_keyword hbefore _ (ends_items depth declaration rest),
      lexAll_items hrest Expr.blank_space depth true declaration h.2.2⟩
  | _, exportNames names _, h =>
    ⟨Item.lexes_keyword hbefore _ (ends_cons (by decide) _), Item.lexAll_append.mpr
      ⟨lexAll_nameBraces h.2 (calm_of_ends (ends_cons (by decide) _)),
        Item.lexes_sign Expr.blank_nil _ hrest, trivial⟩⟩

theorem lexAll_lineItems {rest : List Char} (hrest : calm rest = true) (depth : Nat) :
    (topLevel : Bool) → (ss : List Statement) → AllWellFormed topLevel ss →
      Item.LexAll (lineItems depth ss) rest
  | _, [], _ => trivial
  | topLevel, s :: ss, h =>
    Item.lexAll_append.mpr
      ⟨lexAll_items (calm_lines (lineItems_start depth ss) hrest) (blank_newline depth) depth
        topLevel s h.1, lexAll_lineItems hrest depth topLevel ss h.2⟩

theorem lexAll_methodItems {rest : List Char} (hrest : calm rest = true) (depth : Nat) :
    (ms : List Method) → MethodsWellFormed ms → Item.LexAll (methodItems depth ms) rest
  | [], _ => trivial
  | .mk _ _ _ _ parameters body _ :: ms, h => by
      obtain ⟨⟨hname, hparameters, hbody⟩, hms⟩ := h
      have hmore := calm_lines (methodItems_start depth ms) hrest
      refine Item.lexAll_append.mpr ⟨lexAll_wordBehind (blank_newline depth)
        (isWord_methodWord hname) _ (ends_cons (by decide) _), ?_⟩
      refine lexAll_parameters hparameters (Item.lexAll_append.mpr
        ⟨?_, lexAll_methodItems hrest depth ms hms⟩) (ends_cons (by decide) _)
      exact lexAll_braced Expr.blank_space (lineItems_start _ body) hmore
        fun hrest => lexAll_lineItems hrest (depth + 1) false body hbody

end

end Statement

end Lipi
