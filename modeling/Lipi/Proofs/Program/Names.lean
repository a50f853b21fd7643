import Lipi.Proofs.Program.Grammar
import Lipi.Proofs.Program.Renaming

set_option autoImplicit false

/-! # Where the names of members stand

A token names a member if a point stands in front of it. It names a method if it is a word in front
of a parenthesis and stands directly between the braces of a class; the word for constructors names
none. **Which tokens these are can be told from the kinds of the tokens**, without reading the program:
`Token.namePlaces` goes over them once and remembers which braces are open and whether they are
those of a class. If the tokens spell a program, the texts of the tokens at these places are the
names of members and methods in it, in their order (`Program.Spells.names`).
-/

namespace Lipi

open Token (nth)

/-! ## The scan -/

/-- What is known in front of a token. -/
structure NameScan where
  /-- The token in front of it is a point. -/
  behindDot : Bool
  /-- It stands in the head of a class, in front of the brace. -/
  inHead : Bool
  /-- Of every brace that is open, innermost first, whether it is that of a class. -/
  braces : List Bool

/-- Whether a token of the first kind is a word that names a method if it stands in a class, in front
of a token of the second kind. -/
def TokenKind.namesMethod : TokenKind → TokenKind → Bool
  | .keyword .nirmaan, _ => false
  | .keyword _, .sign .leftParen | .identifier _, .sign .leftParen => true
  | _, _ => false

namespace NameScan

/-- In front of the first token. -/
def start : NameScan := ⟨false, false, []⟩

/-- Whether the innermost brace is that of a class. -/
def inClass (s : NameScan) : Bool :=
  s.braces.headD false

/-- Whether a token of this kind in front of one of the kind `next` is the name of a member. -/
def names (s : NameScan) (kind next : TokenKind) : Bool :=
  s.behindDot || (s.inClass && kind.namesMethod next)

/-- Goes past a token. Behind a point it is a name, whatever it means elsewhere; and in a class only a
method can be called `kaksha`. -/
def step (s : NameScan) (kind : TokenKind) : NameScan :=
  if s.behindDot then { s with behindDot := false }
  else
    match kind with
    | .sign .dot => { s with behindDot := true }
    | .sign .leftBrace => ⟨false, false, s.inHead :: s.braces⟩
    | .sign .rightBrace => { s with braces := s.braces.tail }
    | .keyword .kaksha => { s with inHead := !s.inClass }
    | _ => s

/-- The places of names among tokens of these kinds, of which the first has the number `i`. -/
def places (s : NameScan) (i : Nat) : List TokenKind → List Nat
  | [] => []
  | kind :: kinds =>
    (if s.names kind (kinds.headD .eof) then [i] else []) ++ (s.step kind).places (i + 1) kinds

end NameScan

/-- The places at which tokens name members or methods. -/
def Token.namePlaces (tokens : List Token) : List Nat :=
  NameScan.start.places 0 (tokens.map Token.kind)

/-! ## Going over a spelling -/

/-- From the `i`-th token to the `j`-th, the scan comes from one state to another and past these
names. -/
inductive NameScan.Passes (tokens : Array Token) :
    NameScan → Nat → List String → NameScan → Nat → Prop where
  | refl (s : NameScan) (i : Nat) : Passes tokens s i [] s i
  | skip {s s' : NameScan} {i j : Nat} {xs : List String} :
    s.names (nth tokens i).kind (nth tokens (i + 1)).kind = false →
    Passes tokens (s.step (nth tokens i).kind) (i + 1) xs s' j → Passes tokens s i xs s' j
  | name {s s' : NameScan} {i j : Nat} {xs : List String} :
    s.names (nth tokens i).kind (nth tokens (i + 1)).kind = true →
    Passes tokens (s.step (nth tokens i).kind) (i + 1) xs s' j →
    Passes tokens s i ((nth tokens i).lexeme :: xs) s' j

namespace NameScan.Passes

variable {tokens : Array Token} {s s' s'' : NameScan} {i m j : Nat} {xs ys : List String}

theorem append (h : Passes tokens s i xs s' m) (h' : Passes tokens s' m ys s'' j) :
    Passes tokens s i (xs ++ ys) s'' j := by
  induction h with
  | refl s i => exact h'
  | skip hnot _ ih => exact .skip hnot (ih h')
  | name hname _ ih => exact .name hname (ih h')

theorem trans (h : Passes tokens s i [] s' m) (h' : Passes tokens s' m ys s'' j) :
    Passes tokens s i ys s'' j :=
  h.append h'

theorem le (h : Passes tokens s i xs s' j) : i ≤ j := by
  induction h with
  | refl s i => exact Nat.le_refl i
  | skip _ _ ih | name _ _ ih => omega

end NameScan.Passes

namespace Token

variable {tokens : List Token} {i : Nat}

theorem drop_kinds (hi : i < tokens.length) :
    (tokens.map kind).drop i = (nth tokens.toArray i).kind :: (tokens.map kind).drop (i + 1) := by
  have htoken : nth tokens.toArray i = tokens[i] := by
    unfold nth
    rw [List.getElem?_toArray, List.getElem?_eq_getElem hi]
    rfl
  rw [List.drop_eq_getElem_cons (by rwa [List.length_map]), List.getElem_map, htoken]

theorem headD_drop_kinds (tokens : List Token) (i : Nat) :
    ((tokens.map kind).drop i).headD .eof = (nth tokens.toArray i).kind := by
  unfold nth
  rw [List.headD_eq_head?_getD, List.head?_drop, List.getElem?_map, List.getElem?_toArray]
  cases tokens[i]? <;> rfl

theorem lexeme_nth (hi : i < tokens.length) :
    some (nth tokens.toArray i).lexeme = (tokens[i]?).map lexeme := by
  unfold nth
  rw [List.getElem?_toArray, List.getElem?_eq_getElem hi]
  rfl

end Token

/-- What the scan comes past stands at the places that it finds. -/
theorem NameScan.Passes.found {tokens : List Token} {s s' : NameScan} {i j : Nat}
    {xs : List String} (h : Passes tokens.toArray s i xs s' j) (hj : j ≤ tokens.length) :
    ∃ found : List Nat,
      s.places i ((tokens.map Token.kind).drop i) =
        found ++ s'.places j ((tokens.map Token.kind).drop j) ∧
      xs.map some = found.map fun k => (tokens[k]?).map Token.lexeme := by
  induction h with
  | refl s i => exact ⟨[], rfl, rfl⟩
  | skip hnot h ih =>
      obtain ⟨found, hfound, hnames⟩ := ih hj
      have hi := Nat.lt_of_lt_of_le h.le hj
      refine ⟨found, ?_, hnames⟩
      rw [Token.drop_kinds hi, NameScan.places, Token.headD_drop_kinds, hnot, hfound]
      rfl
  | @name s s' i j xs hname h ih =>
      obtain ⟨found, hfound, hnames⟩ := ih hj
      have hi := Nat.lt_of_lt_of_le h.le hj
      refine ⟨i :: found, ?_, ?_⟩
      · rw [Token.drop_kinds hi, NameScan.places, Token.headD_drop_kinds, hname, hfound]
        rfl
      · rw [List.map_cons, List.map_cons, hnames, Token.lexeme_nth hi]

/-! ## Expressions -/

/-- Whether the scan goes past a token of this kind without a change, unless it is behind a point. -/
def TokenKind.quiet : TokenKind → Bool
  | .sign .dot | .sign .leftBrace | .sign .rightBrace | .keyword .kaksha => false
  | _ => true

namespace TokenKind

theorem quiet_of_binary {kind : TokenKind} {op : BinaryOp} (h : BinaryOp.ofToken? kind = some op) :
    kind.quiet = true := by
  unfold BinaryOp.ofToken? at h
  split at h <;> first | rfl | cases h

theorem quiet_of_unary {kind : TokenKind} {op : UnaryOp} (h : UnaryOp.ofToken? kind = some op) :
    kind.quiet = true := by
  unfold UnaryOp.ofToken? at h
  split at h <;> first | rfl | cases h

theorem quiet_of_literal {kind : TokenKind} {value : Literal}
    (h : Parser.literal? kind = some value) : kind.quiet = true := by
  unfold Parser.literal? at h
  split at h <;> first | rfl | cases h

end TokenKind

namespace NameScan

/-- Outside the heads of classes, between these braces. -/
def between (braces : List Bool) : NameScan := ⟨false, false, braces⟩

/-- In the head of a class that stands between these braces. -/
def head (braces : List Bool) : NameScan := ⟨false, true, braces⟩

theorem step_quiet {s : NameScan} {kind : TokenKind} (hs : s.behindDot = false)
    (h : kind.quiet = true) : s.step kind = s := by
  unfold step
  rw [hs, if_neg Bool.false_ne_true]
  split <;> first | rfl | cases h

theorem names_eq_false {s : NameScan} {kind next : TokenKind} (hs : s.behindDot = false)
    (h : s.inClass = true → kind.namesMethod next = false) : s.names kind next = false := by
  unfold names
  rw [hs, Bool.false_or, Bool.and_eq_false_imp]
  exact h

namespace Passes

variable {tokens : Array Token} {s s' : NameScan} {braces : List Bool} {i j : Nat}
  {xs : List String} {kind : TokenKind}

/-- Outside classes a quiet token names nothing, and the scan goes on behind it. -/
theorem quiet (hs : s.behindDot = false) (hclass : s.inClass = false)
    (h : (nth tokens i).kind.quiet = true) (hrest : Passes tokens s (i + 1) xs s' j) :
    Passes tokens s i xs s' j := by
  refine .skip (names_eq_false hs fun hin => ?_) ?_
  · rw [hclass] at hin
    cases hin
  · rwa [step_quiet hs h]

/-- Between braces that are not those of a class. -/
theorem cons (hb : braces.headD false = false) (h : (nth tokens i).kind = kind)
    (hquiet : kind.quiet = true) (hrest : Passes tokens (between braces) (i + 1) xs s' j) :
    Passes tokens (between braces) i xs s' j :=
  .quiet rfl hb (by rwa [h]) hrest

theorem one (hb : braces.headD false = false) (h : (nth tokens i).kind = kind)
    (hquiet : kind.quiet = true) : Passes tokens (between braces) i [] (between braces) (i + 1) :=
  .cons hb h hquiet (.refl _ _)

theorem snoc (hb : braces.headD false = false) (h : Passes tokens s i xs (between braces) j)
    (hclose : (nth tokens j).kind = kind) (hquiet : kind.quiet = true) :
    Passes tokens s i xs (between braces) (j + 1) :=
  List.append_nil xs ▸ h.append (.one hb hclose hquiet)

/-- Behind a point stands a name. -/
theorem member (hb : braces.headD false = false) (h : (nth tokens i).kind = .sign .dot) :
    Passes tokens (between braces) i [(nth tokens (i + 1)).lexeme] (between braces) (i + 2) := by
  have hdot : Passes tokens ⟨true, false, braces⟩ (i + 1) [(nth tokens (i + 1)).lexeme]
      (between braces) (i + 2) := .name rfl (.refl _ _)
  refine .skip (names_eq_false rfl fun hin => ?_) ?_
  · rw [show (between braces).inClass = false from hb] at hin
    cases hin
  · rw [h]
    exact hdot

end Passes

end NameScan

namespace Expr

open NameScan (Passes between)
open TokenKind (quiet_of_binary quiet_of_unary quiet_of_literal)

variable {tokens : Array Token} {braces : List Bool} (hb : braces.headD false = false)
include hb

mutual

/-- Over the spelling of an expression the scan comes past the names of members in it. -/
theorem passes : (e : Expr) → {i j : Nat} → Spells tokens e i j →
    Passes tokens (between braces) i e.memberNames (between braces) j
  | literal _ _, _, _, ⟨h, rfl⟩ => .one hb rfl (quiet_of_literal h)
  | identifier _ _, _, _, ⟨h, rfl⟩ => .one hb h rfl
  | receiver _, _, _, ⟨h, rfl⟩ => .one hb h rfl
  | super _, _, _, ⟨h, rfl⟩ => .one hb h rfl
  | unary _ operand _, _, _, ⟨hop, h⟩ => .cons hb rfl (quiet_of_unary hop) (passes operand h)
  | binary _ left right _, _, _, ⟨_, hleft, hop, hright⟩ =>
      (passes left hleft).append (.cons hb rfl (quiet_of_binary hop) (passes right hright))
  | assign target value _, _, _, ⟨_, htarget, hequal, hvalue⟩ =>
      (passes target htarget).append (.cons hb hequal rfl (passes value hvalue))
  | call callee arguments _, _, _, ⟨_, hcallee, hopens, harguments⟩ =>
      (passes callee hcallee).append (.cons hb hopens.1 rfl (passesList rfl arguments harguments))
  | member object _ _, _, _, ⟨_, hobject, hdot, _, hname, rfl⟩ =>
      (passes object hobject).append (hname ▸ .member hb hdot)
  | index object key _, _, _, ⟨_, _, hobject, hopens, hkey, hclose, rfl⟩ =>
      (passes object hobject).append (.cons hb hopens.1 rfl
        (.snoc hb (passes key hkey) hclose rfl))
  | array elements _, _, _, ⟨hopens, h⟩ => .cons hb hopens rfl (passesList rfl elements h)
  | new _ arguments _, _, _, ⟨hnaya, hname, .inl ⟨hparen, h⟩⟩ =>
      .cons hb hnaya rfl (.cons hb hname rfl (.cons hb hparen rfl (passesList rfl arguments h)))
  | new _ _ _, _, _, ⟨hnaya, hname, .inr ⟨_, hnone, rfl⟩⟩ =>
      hnone ▸ .cons hb hnaya rfl (.one hb hname rfl)
  | grouping inner _, _, _, ⟨hopens, _, hinner, hclose, rfl⟩ =>
      .cons hb hopens rfl (.snoc hb (passes inner hinner) hclose rfl)

theorem passesList {closing : Sign} (hquiet : (TokenKind.sign closing).quiet = true) :
    (es : List Expr) → {i j : Nat} → SpellsList tokens closing es i j →
    Passes tokens (between braces) i (memberNamesAll es) (between braces) j
  | [], _, _, ⟨hclose, rfl⟩ => .one hb hclose hquiet
  | e :: es, _, _, ⟨_, he, hmore⟩ => (passes e he).append (passesMore hquiet es hmore)

theorem passesMore {closing : Sign} (hquiet : (TokenKind.sign closing).quiet = true) :
    (es : List Expr) → {i j : Nat} → SpellsMore tokens closing es i j →
    Passes tokens (between braces) i (memberNamesAll es) (between braces) j
  | [], _, _, ⟨hclose, rfl⟩ => .one hb hclose hquiet
  | e :: es, _, _, ⟨hcomma, _, he, hmore⟩ =>
      .cons hb hcomma rfl ((passes e he).append (passesMore hquiet es hmore))

end

end Expr

/-! ## Statements -/

namespace Statement

open NameScan (Passes between head names_eq_false step_quiet)

variable {tokens : Array Token} {braces : List Bool} {s : NameScan} {i j m : Nat}
  {xs : List String}

/-! ### Names, and the ends of statements

Lists of names stand outside classes and in the heads of methods. There the scan goes past them
because no name in them has a parenthesis behind it. -/

/-- Directly between the braces of a class, too, nothing is named by a token that is quiet and no
word in front of a parenthesis. -/
theorem passes_token {kind : TokenKind} (h : (nth tokens i).kind = kind)
    (hquiet : kind.quiet = true) (hnone : kind.namesMethod (nth tokens (i + 1)).kind = false)
    (hrest : Passes tokens (between braces) (i + 1) xs s j) :
    Passes tokens (between braces) i xs s j := by
  refine .skip (names_eq_false rfl fun _ => by rwa [h]) ?_
  rwa [step_quiet rfl (by rwa [h])]

theorem namesMethod_eq_false (kind : TokenKind) {next : TokenKind} (h : next ≠ .sign .leftParen) :
    kind.namesMethod next = false := by
  unfold TokenKind.namesMethod
  split <;> first | rfl | exact absurd rfl h

theorem SpellsMoreNames.kind_ne {closing : Sign} (hclosing : closing ≠ .leftParen)
    {ys : List String} (h : SpellsMoreNames tokens closing ys i j) :
    (nth tokens i).kind ≠ .sign .leftParen := by
  cases ys with
  | nil =>
      rw [h.1]
      exact fun heq => hclosing (TokenKind.sign.inj heq)
  | cons y ys =>
      rw [h.1]
      simp

variable (braces) in
theorem passesMoreNames {closing : Sign} (hclosing : closing ≠ .leftParen) {ys : List String}
    (h : SpellsMoreNames tokens closing ys i j) :
    ∃ k, Passes tokens (between braces) i [] (between braces) k ∧
      (nth tokens k).kind = .sign closing ∧ j = k + 1 := by
  induction ys generalizing i with
  | nil => exact ⟨i, .refl _ _, h⟩
  | cons y ys ih =>
      obtain ⟨hcomma, hname, h⟩ := h
      obtain ⟨k, hpasses, hk⟩ := ih h
      refine ⟨k, passes_token hcomma rfl rfl (passes_token hname rfl ?_ hpasses), hk⟩
      exact namesMethod_eq_false _ (h.kind_ne hclosing)

variable (braces) in
theorem passesNames {closing : Sign} (hclosing : closing ≠ .leftParen) {ys : List String}
    (h : SpellsNames tokens closing ys i j) :
    ∃ k, Passes tokens (between braces) i [] (between braces) k ∧
      (nth tokens k).kind = .sign closing ∧ j = k + 1 := by
  cases ys with
  | nil => exact ⟨i, .refl _ _, h⟩
  | cons y ys =>
      obtain ⟨hname, h⟩ := h
      obtain ⟨k, hpasses, hk⟩ := passesMoreNames braces hclosing h
      exact ⟨k, passes_token hname rfl (namesMethod_eq_false _ (h.kind_ne hclosing)) hpasses, hk⟩

theorem passesEnds (hb : braces.headD false = false) (h : Ends tokens i j) :
    Passes tokens (between braces) i [] (between braces) j := by
  rcases h with ⟨hkind, rfl⟩ | ⟨_, _, rfl⟩
  · exact .one hb hkind rfl
  · exact .refl _ _

/-- An expression with the end of the statement behind it. -/
theorem passesValue (hb : braces.headD false = false) (e : Expr) (he : e.Spells tokens i m)
    (hend : Ends tokens m j) :
    Passes tokens (between braces) i e.memberNames (between braces) j :=
  List.append_nil e.memberNames ▸ (e.passes hb he).append (passesEnds hb hend)

theorem passesCondition (hb : braces.headD false = false) {c : Expr}
    (h : SpellsCondition tokens c i j) :
    Passes tokens (between braces) i c.memberNames (between braces) j := by
  rcases h with h | ⟨hparen, m, h, hclose, rfl⟩
  · exact c.passes hb h
  · exact .cons hb hparen rfl (.snoc hb (c.passes hb h) hclose rfl)

/-! ### Braces -/

/-- A brace that opens remembers whether it stands behind the head of a class, and the one that closes
it comes back to the braces outside. -/
theorem passesBraces {t : NameScan} (ht : t.behindDot = false) {P : Nat → Nat → Prop}
    (h : InBraces tokens P i j)
    (hP : ∀ m, P (i + 1) m → Passes tokens (between (t.inHead :: t.braces)) (i + 1) xs
      (between (t.inHead :: t.braces)) m) :
    Passes tokens t i xs (between t.braces) j := by
  obtain ⟨hopen, m, hm, hclose, rfl⟩ := h
  have hinside : t.step (.sign .leftBrace) = between (t.inHead :: t.braces) := by
    unfold NameScan.step
    rw [ht]
    rfl
  have hbehind : Passes tokens (between (t.inHead :: t.braces)) m [] (between t.braces) (m + 1) := by
    refine .skip (names_eq_false rfl fun _ => by rw [hclose]; rfl) ?_
    rw [hclose]
    exact .refl _ _
  refine .skip (names_eq_false ht fun _ => by rw [hopen]; rfl) ?_
  rw [hopen, hinside]
  exact List.append_nil xs ▸ (hP m hm).append hbehind

/-- The names that are imported or exported. -/
theorem passesNameBraces {ys : List String} (hopen : (nth tokens i).kind = .sign .leftBrace)
    (h : SpellsNames tokens .rightBrace ys (i + 1) j) :
    Passes tokens (between braces) i [] (between braces) j := by
  obtain ⟨k, hnames, hclose, rfl⟩ := passesNames (false :: braces) (by decide) h
  have hbraces : InBraces tokens (fun _ m => m = k) i (k + 1) := ⟨hopen, k, rfl, hclose, rfl⟩
  exact passesBraces rfl hbraces fun m hm => hm ▸ hnames

theorem passesRoutine {parameters : List String} {body : Nat → Nat → Prop}
    (h : SpellsRoutine tokens parameters body i j)
    (hbody : ∀ m m', body m m' →
      Passes tokens (between (false :: braces)) m xs (between (false :: braces)) m') :
    Passes tokens (between braces) i xs (between braces) j := by
  obtain ⟨hparen, m, hparameters, h⟩ := h
  obtain ⟨k, hnames, hclose, rfl⟩ := passesNames braces (by decide) hparameters
  refine passes_token hparen rfl rfl (hnames.trans (passes_token hclose rfl rfl ?_))
  exact passesBraces rfl h fun m' hm' => hbody _ _ hm'

/-! ### Classes -/

theorem passesSuperclass (hb : braces.headD false = false) {name : Option String}
    (h : SpellsSuperclass tokens name i j) :
    Passes tokens (head braces) i [] (head braces) j := by
  cases name with
  | none =>
      rw [h.2]
      exact .refl _ _
  | some name =>
      obtain ⟨hvirasat, hname, rfl⟩ := h
      exact .quiet rfl hb (by rw [hvirasat]; rfl) (.quiet rfl hb (by rw [hname]; rfl) (.refl _ _))

/-- The head of a class, up to the brace. -/
theorem passesHead (hb : braces.headD false = false) {name : String} {superclass : Option String}
    (hkaksha : (nth tokens i).kind = .keyword .kaksha)
    (hname : (nth tokens (i + 1)).kind = .identifier name)
    (hsuper : SpellsSuperclass tokens superclass (i + 2) j) :
    Passes tokens (between braces) i [] (head braces) j := by
  have hinside : (between braces).step (.keyword .kaksha) = head braces := by
    show (⟨false, !braces.headD false, braces⟩ : NameScan) = head braces
    rw [hb]
    rfl
  refine .skip (names_eq_false rfl fun hin => ?_) ?_
  · rw [show (between braces).inClass = false from hb] at hin
    cases hin
  · rw [hkaksha, hinside]
    exact .quiet rfl hb (by rw [hname]; rfl) (passesSuperclass hb hsuper)

theorem passesModifiers {ks : List Keyword} (h : SpellsModifiers tokens ks i j) :
    Passes tokens (between braces) i [] (between braces) j := by
  induction ks generalizing i with
  | nil =>
      rw [h.2]
      exact .refl _ _
  | cons k ks ih =>
      obtain ⟨⟨hword, hkind, hnext⟩, h⟩ := h
      refine passes_token hkind ?_ (namesMethod_eq_false _ hnext) (ih h)
      rcases hword with rfl | rfl | rfl | rfl <;> rfl

theorem passesFunctionWord (h : SpellsFunctionWord tokens i j) :
    Passes tokens (between braces) i [] (between braces) j := by
  rcases h with ⟨⟨hkind, hnext⟩, rfl⟩ | ⟨_, rfl⟩
  · exact passes_token hkind rfl (namesMethod_eq_false _ hnext) (.refl _ _)
  · exact .refl _ _

theorem passesSemicolons (h : Semicolons tokens i j) :
    Passes tokens (between braces) i [] (between braces) j := by
  obtain ⟨hle, hall, -⟩ := h
  obtain ⟨n, rfl⟩ := Nat.exists_eq_add_of_le hle
  induction n generalizing i with
  | zero => exact .refl _ _
  | succ n ih =>
      refine passes_token (hall i (Nat.le_refl i) (by omega)) rfl rfl ?_
      rw [show i + (n + 1) = i + 1 + n by omega] at hall ⊢
      exact ih (by omega) fun k hk => hall k (by omega)

/-- The name of a method. -/
theorem passesMethodName {name : String} (hlexed : (nth tokens i).Lexed)
    (hname : SpellsMethodName tokens false name i)
    (hparen : (nth tokens (i + 1)).kind = .sign .leftParen) :
    Passes tokens (between (true :: braces)) i [name] (between (true :: braces)) (i + 1) := by
  obtain ⟨hne, hword, rfl⟩ := hname
  have hrefl : Passes tokens (between (true :: braces)) (i + 1) [] (between (true :: braces))
      (i + 1) := .refl _ _
  unfold Token.isWord at hword
  unfold Token.Lexed at hlexed
  cases hkind : (nth tokens i).kind with
  | identifier x =>
      refine .name ?_ ?_
      · rw [hkind, hparen]
        rfl
      · rwa [hkind]
  | keyword word =>
      refine .name ?_ ?_
      · rw [hkind, hparen]
        cases word <;> first | rfl | exact absurd hkind hne
      · rw [hkind]
        cases word <;> exact hrefl
  -- no sign is written with letters
  | sign sign =>
      rw [hkind] at hword hlexed
      exact absurd (hword.symm.trans hlexed) Bool.noConfusion
  | _ =>
      rw [hkind] at hword
      cases hword

/-- The head of a method names it, unless it is a constructor. -/
theorem passesMethodHead (hlexed : ∀ k, (nth tokens k).Lexed) {access : Access}
    {isStatic isConstructor : Bool} {name : String}
    (h : SpellsMethodHead tokens access isStatic isConstructor name i j)
    (hparen : (nth tokens j).kind = .sign .leftParen) :
    Passes tokens (between (true :: braces)) i (if isConstructor then [] else [name])
      (between (true :: braces)) j := by
  obtain ⟨ks, m, m', hmodifiers, -, hword, hname, rfl⟩ := h
  refine (passesModifiers hmodifiers).trans ((passesFunctionWord hword).trans ?_)
  cases isConstructor with
  | true => exact passes_token hname.1 rfl rfl (.refl _ _)
  | false => exact passesMethodName (hlexed m') hname hparen

mutual

/-- Over the spelling of a statement the scan comes past the names of members and methods in it. -/
theorem passes {tokens : Array Token} (hlexed : ∀ k, (nth tokens k).Lexed) {braces : List Bool}
    (hb : braces.headD false = false) : (t : Statement) → {i j : Nat} → Spells tokens t i j →
    Passes tokens (between braces) i t.memberNames (between braces) j
  | binding constant _ initializer _, _, _, ⟨hkind, hname, hequal, _, he, hend⟩ => by
      have hquiet : (TokenKind.keyword (if constant then .pakka else .rakho)).quiet = true := by
        cases constant <;> rfl
      exact .cons hb hkind hquiet (.cons hb hname rfl (.cons hb hequal rfl
        (passesValue hb initializer he hend)))
  | function _ _ body _, _, _, ⟨hkind, hname, hroutine⟩ =>
      .cons hb hkind rfl (.cons hb hname rfl
        (passesRoutine hroutine fun _ _ => passesAll hlexed rfl body))
  | classDecl _ _ methods _, _, _, ⟨hkind, hname, _, hsuper, hmethods⟩ =>
      (passesHead hb hkind hname hsuper).trans
        (passesBraces rfl hmethods fun _ => passesMethods hlexed methods)
  | conditional condition thenBranch none _, _, _, ⟨hkind, _, hc, hthen⟩ =>
      .cons hb hkind rfl ((passesCondition hb hc).append (passes hlexed hb thenBranch hthen))
  | conditional condition thenBranch (some elseBranch) _, _, _,
      ⟨hkind, _, _, hc, hthen, hwarna, helse⟩ =>
      .cons hb hkind rfl ((passesCondition hb hc).append
        ((passes hlexed hb thenBranch hthen).append
          (.cons hb hwarna rfl (passes hlexed hb elseBranch helse))))
  | loop _ body _, _, _, ⟨hkind, _, hc, hbody⟩ =>
      .cons hb hkind rfl ((passesCondition hb hc).append (passes hlexed hb body hbody))
  | giveBack none _, _, _, ⟨hkind, hend⟩ => .cons hb hkind rfl (passesEnds hb hend)
  | giveBack (some value) _, _, _, ⟨hkind, _, he, hend⟩ =>
      .cons hb hkind rfl (passesValue hb value he hend)
  | print value _, _, _, ⟨hkind, _, he, hend⟩ =>
      .cons hb hkind rfl (passesValue hb value he hend)
  | block statements _, _, _, h => passesBraces rfl h fun _ => passesAll hlexed rfl statements
  | expression expr _, _, _, ⟨_, he, hend⟩ => passesValue hb expr he hend
  | empty _, _, _, ⟨hkind, rfl⟩ => .one hb hkind rfl
  | importNames _ _ _, _, _, ⟨hkind, hopen, _, hnames, hse, hsource, hend⟩ =>
      .cons hb hkind rfl ((passesNameBraces hopen hnames).trans
        (.cons hb hse rfl (.cons hb hsource rfl (passesEnds hb hend))))
  | exportDecl declaration _, _, _, ⟨hkind, h⟩ =>
      .cons hb hkind rfl (passes hlexed hb declaration h)
  | exportNames _ _, _, _, ⟨hkind, hopen, _, hnames, hend⟩ =>
      .cons hb hkind rfl ((passesNameBraces hopen hnames).trans (passesEnds hb hend))

theorem passesAll {tokens : Array Token} (hlexed : ∀ k, (nth tokens k).Lexed)
    {braces : List Bool} (hb : braces.headD false = false) : (ts : List Statement) →
    {i j : Nat} → SpellsAll tokens ts i j →
    Passes tokens (between braces) i (memberNamesAll ts) (between braces) j
  | [], _, _, rfl => .refl _ _
  | t :: ts, _, _, ⟨_, ht, hts⟩ => (passes hlexed hb t ht).append (passesAll hlexed hb ts hts)

theorem passesMethods {tokens : Array Token} (hlexed : ∀ k, (nth tokens k).Lexed)
    {braces : List Bool} : (ms : List Method) → {i j : Nat} → SpellsMethods tokens ms i j →
    Passes tokens (between (true :: braces)) i (memberNamesMethods ms)
      (between (true :: braces)) j
  | [], _, _, h => passesSemicolons h
  | .mk _ _ true _ _ body _ :: ms, _, _, ⟨_, _, _, hskip, hhead, hroutine, hrest⟩ =>
      (passesSemicolons hskip).trans ((passesMethodHead hlexed hhead hroutine.1).trans
        ((passesRoutine hroutine fun _ _ => passesAll hlexed rfl body).append
          (passesMethods hlexed ms hrest)))
  | .mk _ _ false _ _ body _ :: ms, _, _, ⟨_, _, _, hskip, hhead, hroutine, hrest⟩ =>
      (passesSemicolons hskip).trans ((passesMethodHead hlexed hhead hroutine.1).append
        ((passesRoutine hroutine fun _ _ => passesAll hlexed rfl body).append
          (passesMethods hlexed ms hrest)))

end

end Statement

/-! ## Programs -/

namespace Program

/-- Over the spelling of a program the scan comes past the names in it, and it ends as it started. -/
theorem Spells.passes {tokens : Array Token} (hlexed : ∀ k, (nth tokens k).Lexed) {p : Program}
    (h : p.Spells tokens) :
    NameScan.Passes tokens .start 0 p.memberNames .start tokens.size := by
  obtain ⟨m, hbody, hends⟩ := h
  have hb : ([] : List Bool).headD false = false := rfl
  have hpasses := Statement.passesAll hlexed hb p.body hbody
  unfold Program.start at hpasses
  cases hmarkers : p.markers with
  | true =>
      rw [hmarkers, if_pos rfl] at hends hpasses
      obtain ⟨hshuru, hkhatam, heof, hsize⟩ := hends
      rw [hsize]
      exact .cons hb hshuru rfl (.snoc hb (.snoc hb hpasses hkhatam rfl) heof rfl)
  | false =>
      rw [hmarkers, if_neg Bool.false_ne_true] at hends hpasses
      obtain ⟨heof, hsize⟩ := hends
      rw [hsize]
      exact .snoc hb hpasses heof rfl

/-- **If tokens spell a program, the names in it are the texts of the tokens at the places of names**,
in their order. -/
theorem Spells.names {tokens : List Token} (hscanned : Token.Scanned tokens) {p : Program}
    (h : p.Spells tokens.toArray) :
    p.memberNames.map some =
      (Token.namePlaces tokens).map fun k => (tokens[k]?).map Token.lexeme := by
  obtain ⟨found, hfound, hnames⟩ := (h.passes hscanned.lexed_nth).found (Nat.le_refl _)
  have hall : Token.namePlaces tokens = found := by
    show NameScan.start.places 0 (tokens.map Token.kind) = found
    rw [← List.drop_zero (l := tokens.map Token.kind), hfound, List.size_toArray,
      ← List.length_map (f := Token.kind), List.drop_length]
    exact List.append_nil found
  rw [hall, hnames]

/-- A text with these tokens is read as they are. -/
theorem ofText_of_tokenize {text : String} {tokens : List Token}
    (h : tokenize text = .ok tokens) : ofText text = ofTokens tokens := by
  unfold ofText
  rw [h]

/-- `Spells.names` for tokens that are read. -/
theorem names_of_ofTokens {text : String} {tokens : List Token} (htokens : tokenize text = .ok tokens)
    {p : Program} (h : ofTokens tokens = .ok p) :
    p.memberNames.map some =
      (Token.namePlaces tokens).map fun k => (tokens[k]?).map Token.lexeme := by
  obtain ⟨tokens', htokens', hspells⟩ := spells_of_ofText ((ofText_of_tokenize htokens).trans h)
  rw [htokens] at htokens'
  cases htokens'
  exact hspells.names (scanned_of_tokenize htokens)

/-- A method and a member are named by words that mean something elsewhere. -/
example : (tokenize "kaksha A \x7b agar() \x7b wapas yeh.jabtak \x7d \x7d").toOption.map
    Token.namePlaces = some [3, 10] := by decide +kernel

end Program

end Lipi
