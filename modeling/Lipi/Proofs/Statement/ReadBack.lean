import Lipi.Proofs.Statement.Classes

set_option autoImplicit false

/-! # Statements are read back, or misread

The readers of the simple statements, and the choice among all statements by the first token. With
the bodies and the classes of the other modules, this ties the knot: **a statement is read back from
its items, up to positions, if and only if nothing in it is misread** (`tells_declaration`).
-/

namespace Lipi

namespace Parser

open Lipi.Stream (Shows)
open Statement (nameItems nameBraces)

/-! ## Simple statements -/

/-- An expression with a semicolon behind it. -/
theorem reads_valued {e : Expr} (hwell : e.WellFormed) {f : Expr → Statement} {t : Statement}
    (hf : ∀ e', Expr.Same e e' → Statement.Same t (f e')) (what : String) (before : List Char)
    (rest : List Item) :
    Reads (do let value ← expression; boundary what; return f value)
      (e.items before ++ .sign [] .semicolon :: rest) rest (Statement.Same t) := by
  have hcloses : Expr.Closes (.sign [] .semicolon :: rest) := Expr.closes_sign (by simp) [] rest
  refine reads_bind (reads_expression hwell before hcloses) fun e' he' => ?_
  exact reads_bind reads_boundary fun _ _ => reads_pure (hf e' he')

theorem reads_bindingDecl {name : String} (hname : IsName name) {e : Expr} (he : e.WellFormed)
    (constant : Bool) (pos : Position) (depth : Nat) (before : List Char) (rest : List Item) :
    Reads (bindingDecl constant) ((Statement.binding constant name e pos).items depth before ++ rest)
      rest (Statement.Same (.binding constant name e pos)) := by
  simp only [Statement.items, List.cons_append, List.append_assoc]
  refine reads_bind reads_advance fun start _ => ?_
  refine reads_bind (reads_identifier hname) ?_
  rintro _ rfl
  refine reads_bind reads_consume_sign fun _ _ => ?_
  refine reads_valued he (fun e' he' => ?_) _ [' '] rest
  show Statement.binding _ _ e'.erase _ = Statement.binding _ _ e.erase _
  rw [he']

theorem reads_printStatement {e : Expr} (he : e.WellFormed) (pos : Position) (depth : Nat)
    (before : List Char) (rest : List Item) :
    Reads printStatement ((Statement.print e pos).items depth before ++ rest) rest
      (Statement.Same (.print e pos)) := by
  simp only [Statement.items, List.cons_append, List.append_assoc]
  refine reads_bind reads_advance fun start _ => ?_
  refine reads_valued he (fun e' he' => ?_) _ [' '] rest
  show Statement.print e'.erase _ = Statement.print e.erase _
  rw [he']

theorem reads_expressionStatement {e : Expr} (he : e.WellFormed) (pos : Position) (depth : Nat)
    (before : List Char) (rest : List Item) :
    Reads expressionStatement ((Statement.expression e pos).items depth before ++ rest) rest
      (Statement.Same (.expression e pos)) := by
  simp only [Statement.items, List.append_assoc]
  refine reads_bind reads_get fun current _ => ?_
  refine reads_valued he (fun e' he' => ?_) _ before rest
  show Statement.expression e'.erase _ = Statement.expression e.erase _
  rw [he']

theorem reads_returnNothing (pos : Position) (depth : Nat) (before : List Char)
    (rest : List Item) :
    Reads returnStatement ((Statement.giveBack none pos).items depth before ++ rest) rest
      (Statement.Same (.giveBack none pos)) := by
  refine reads_bind reads_advance fun start _ => ?_
  refine reads_bind reads_get fun current hcurrent => ?_
  -- a semicolon is a boundary
  have hboundary : current.atBoundary = true := by
    have hkind : current.kind = .sign .semicolon := hcurrent.kind
    unfold Stream.atBoundary
    rw [hkind, Bool.true_or]
  rw [if_pos hboundary]
  exact reads_bind reads_boundary fun _ _ => reads_pure rfl

/-- No boundary stands in front of the expression of a return. -/
theorem reads_returnValue {e : Expr} (he : e.WellFormed) (pos : Position) (depth : Nat)
    (before : List Char) (rest : List Item) :
    Reads returnStatement ((Statement.giveBack (some e) pos).items depth before ++ rest) rest
      (Statement.Same (.giveBack (some e) pos)) := by
  simp only [Statement.items, List.cons_append, List.append_assoc]
  refine reads_bind reads_advance fun start _ => ?_
  refine reads_bind reads_get fun current hcurrent => ?_
  -- the expression stands on the line of its keyword and starts with no closing token
  have hboundary : current.atBoundary = false := by
    obtain ⟨i, is, hcons, hleads⟩ := Expr.items_lead [' '] e he
    rw [hcons, List.cons_append] at hcurrent
    have hstarts := hleads.starts
    have hline : current.atLineBreak = false := by
      rw [hcurrent.lineBreak]
      unfold Item.startsLine
      rw [hleads.before]
      decide
    unfold Stream.atBoundary
    rw [hline, hcurrent.kind, Bool.or_false]
    split
    · next hkind =>
      rw [hkind] at hstarts
      cases hstarts
    · next hkind =>
      rw [hkind] at hstarts
      cases hstarts
    · next hkind =>
      rw [hkind] at hstarts
      cases hstarts
    · next hkind =>
      rw [hkind] at hstarts
      cases hstarts
    · rfl
  rw [if_neg (by rw [hboundary]; exact Bool.false_ne_true)]
  refine reads_valued he (fun e' he' => ?_) _ [' '] rest
  show Statement.giveBack (some e'.erase) _ = Statement.giveBack (some e.erase) _
  rw [he']

/-! ## Imports and exports -/

theorem reads_moduleName {before : List Char} {source : String} {is : List Item} :
    Reads moduleName (.string before source :: is) is (· = source) := by
  refine reads_token fun s hs => ⟨source, ?_, rfl⟩
  have hkind : s.kind = .string source := hs.kind
  unfold moduleName
  rw [hkind]

theorem reads_importStatement {names : List String} (hnames : ∀ x ∈ names, IsName x)
    (source : String) (pos : Position) (depth : Nat) (before : List Char) (rest : List Item) :
    Reads importStatement ((Statement.importNames names source pos).items depth before ++ rest) rest
      (Statement.Same (.importNames names source pos)) := by
  simp only [Statement.items, nameBraces, List.cons_append, List.append_assoc]
  refine reads_bind reads_advance fun start _ => ?_
  refine reads_bind reads_consume_sign fun _ _ => ?_
  refine reads_bind (reads_names hnames (Or.inr rfl) _ _ _ _ _) ?_
  rintro _ rfl
  refine reads_bind reads_consume_keyword fun _ _ => ?_
  refine reads_bind reads_moduleName ?_
  rintro _ rfl
  exact reads_bind reads_boundary fun _ _ => reads_pure rfl

theorem reads_exportNames {names : List String} (hnames : ∀ x ∈ names, IsName x) (pos : Position)
    (nested : Parser Statement) (depth : Nat) (before : List Char) (rest : List Item) :
    Reads (exportStatement nested) ((Statement.exportNames names pos).items depth before ++ rest)
      rest (Statement.Same (.exportNames names pos)) := by
  simp only [Statement.items, nameBraces, List.cons_append, List.append_assoc]
  refine reads_bind reads_advance fun start _ => ?_
  refine reads_bind reads_get fun current hcurrent => ?_
  have hkind : current.kind = .sign .leftBrace := hcurrent.kind
  rw [hkind]
  refine reads_bind reads_advance fun _ _ => ?_
  refine reads_bind (reads_names hnames (Or.inr rfl) _ _ _ _ _) ?_
  rintro _ rfl
  exact reads_bind reads_boundary fun _ _ => reads_pure rfl

/-- A declaration starts with a word of its own, by which its export is told from one of names. -/
theorem declaration_lead {t : Statement} (h : t.declaredName?.isSome = true) (depth : Nat)
    (before : List Char) : ∃ k is, t.items depth before = .keyword before k :: is ∧
      (k = .rakho ∨ k = .pakka ∨ k = .kaam ∨ k = .kaksha) := by
  cases t with
  | binding constant name initializer pos =>
      cases constant with
      | true => exact ⟨.pakka, _, rfl, by simp⟩
      | false => exact ⟨.rakho, _, rfl, by simp⟩
  | function => exact ⟨.kaam, _, rfl, by simp⟩
  | classDecl => exact ⟨.kaksha, _, rfl, by simp⟩
  | _ => cases h

theorem isOpen_eq_false {t : Statement} (h : t.declaredName?.isSome = true) : t.isOpen = false := by
  cases t with
  | binding => rfl
  | function => rfl
  | classDecl => rfl
  | _ => cases h

section Nested

variable {nested : Bool → Parser Statement} {d : Nat} (hsteady : ∀ top, Steady (nested top))
  (hnested : TellsNested nested d)

include hnested

theorem tells_exportDecl {t : Statement} {pos : Position}
    (hwell : (Statement.exportDecl t pos).WellFormed true)
    (hdepth : (Statement.exportDecl t pos).depth ≤ d + 1) (depth : Nat) (before : List Char)
    (rest : List Item) :
    Tells (exportStatement (nested true)) ((Statement.exportDecl t pos).items depth before ++ rest)
      rest (Statement.exportDecl t pos).misread (Statement.Same (.exportDecl t pos))
      (Statement.Differs (.exportDecl t pos)) := by
  obtain ⟨_, hdeclares, ht⟩ := hwell
  rw [Statement.depth] at hdepth
  rw [Statement.items, List.cons_append]
  refine tells_after reads_advance fun start _ => ?_
  refine tells_after reads_get fun current hcurrent => ?_
  -- a declaration is never open, whatever follows it
  have hopen : t.isOpen = true → Item.kindOf rest ≠ .keyword .warna := by
    intro h
    rw [isOpen_eq_false hdeclares] at h
    cases h
  -- the declaration is a statement of the top level again
  have hbody : Tells (nested true >>= fun declaration =>
      pure (Statement.exportDecl declaration start.position)) (t.items depth [' '] ++ rest) rest
      t.misread (Statement.Same (.exportDecl t pos)) (Statement.Differs (.exportDecl t pos)) := by
    refine tells_then (hnested true t ht (by omega) depth [' '] rest hopen) ?_ ?_ ?_
    · intro t' ht'
      refine reads_pure ?_
      show Statement.exportDecl t'.erase _ = Statement.exportDecl t.erase _
      rw [ht']
    · exact fun _ => steady_pure _
    · intro t' s u s' ht' hrun
      obtain ⟨rfl, _⟩ := pure_ok hrun
      unfold Statement.Differs
      rw [Statement.agrees]
      exact ht'
  obtain ⟨k, is, hcons, hk⟩ := declaration_lead hdeclares depth [' ']
  have hkind : current.kind = .keyword k := by
    rw [hcons, List.cons_append] at hcurrent
    exact hcurrent.kind
  rw [hkind]
  rcases hk with rfl | rfl | rfl | rfl
  · exact hbody
  · exact hbody
  · exact hbody
  · exact hbody

/-! ## All statements -/

omit hnested in
theorem statementOf_expression {topLevel : Bool} {s : Stream} (h : s.kind.startsExpr = true) :
    statementOf nested topLevel s = expressionStatement s := by
  unfold statementOf
  generalize s.kind = kind at h
  split
  case h_14 => rfl
  all_goals cases h

include hsteady

theorem tells_block {ts : List Statement} {pos : Position}
    (hwell : (Statement.block ts pos).WellFormed false)
    (hdepth : (Statement.block ts pos).depth ≤ d + 1) (depth : Nat) (before : List Char)
    (rest : List Item) :
    Tells (blockOf (nested false) "block" >>= fun r => pure (.block r.2 r.1))
      ((Statement.block ts pos).items depth before ++ rest) rest (Statement.block ts pos).misread
      (Statement.Same (.block ts pos)) (Statement.Differs (.block ts pos)) := by
  rw [Statement.depth] at hdepth
  refine tells_then (tells_blockOf hsteady hnested hwell (by omega) "block" before depth rest) ?_ ?_ ?_
  · intro r hr
    refine reads_pure ?_
    show Statement.block (Statement.eraseAll r.2) _ = Statement.block (Statement.eraseAll ts) _
    rw [hr]
  · exact fun _ => steady_pure _
  · intro r s u s' hr hrun
    obtain ⟨rfl, _⟩ := pure_ok hrun
    unfold Statement.Differs
    rw [Statement.agrees]
    exact hr

/-- **One level of statements**: the first token chooses the reader. -/
theorem tells_statementOf : TellsNested (statementOf nested) (d + 1) := by
  intro topLevel t hwell hdepth depth before rest hrest
  cases t using Statement.shapes with
  | binding constant name e pos =>
      have hread := reads_bindingDecl hwell.1 hwell.2 constant pos depth before rest
      cases constant with
      | true =>
          refine (tells_of_reads hread).chosen (k := .keyword .pakka) rfl fun s hkind => ?_
          rw [statementOf, hkind]
      | false =>
          refine (tells_of_reads hread).chosen (k := .keyword .rakho) rfl fun s hkind => ?_
          rw [statementOf, hkind]
  | function name parameters body pos =>
      refine (tells_functionDecl hsteady hnested hwell hdepth depth before rest).chosen
        (k := .keyword .kaam) rfl fun s hkind => ?_
      rw [statementOf, hkind]
  | classDecl name superclass methods pos =>
      refine (tells_classDecl hsteady hnested hwell hdepth depth before rest).chosen
        (k := .keyword .kaksha) rfl fun s hkind => ?_
      rw [statementOf, hkind]
  -- nothing that follows may be taken for the other branch, which is what `hrest` says
  | conditional c t pos =>
      refine (tells_conditional hsteady hnested hwell hdepth depth before (hrest rfl)).chosen
        (k := .keyword .agar) rfl fun s hkind => ?_
      rw [statementOf, hkind]
  | alternative c t e pos =>
      refine (tells_alternative hsteady hnested hwell hdepth depth before hrest).chosen
        (k := .keyword .agar) rfl fun s hkind => ?_
      rw [statementOf, hkind]
  | loop c t pos =>
      refine (tells_loop hsteady hnested hwell hdepth depth before hrest).chosen
        (k := .keyword .jabtak) rfl fun s hkind => ?_
      rw [statementOf, hkind]
  | giveNothing pos =>
      refine (tells_of_reads (reads_returnNothing pos depth before rest)).chosen
        (k := .keyword .wapas) rfl fun s hkind => ?_
      rw [statementOf, hkind]
  | giveBack e pos =>
      refine (tells_of_reads (reads_returnValue hwell pos depth before rest)).chosen
        (k := .keyword .wapas) rfl fun s hkind => ?_
      rw [statementOf, hkind]
  | print e pos =>
      refine (tells_of_reads (reads_printStatement hwell pos depth before rest)).chosen
        (k := .keyword .chaap) rfl fun s hkind => ?_
      rw [statementOf, hkind]
  -- a block starts with its own brace and is made a statement after it has been read
  | block ts pos =>
      have hblock := tells_block hsteady hnested hwell hdepth depth before rest
      refine hblock.chosen (k := .sign .leftBrace) rfl fun s hkind => ?_
      rw [statementOf, hkind]
      show _ = EStateM.bind _ _ s
      unfold EStateM.bind
      cases blockOf (nested false) "block" s <;> rfl
  -- what starts with none of the words above is an expression
  | expression e pos =>
      refine (tells_of_reads (reads_expressionStatement hwell pos depth before rest)).congr
        fun s hs => ?_
      obtain ⟨i, is, hcons, hleads⟩ := Expr.items_lead before e hwell
      rw [Statement.items, hcons, List.cons_append, List.cons_append] at hs
      refine statementOf_expression ?_
      rw [hs.kind]
      exact hleads.starts
  | empty pos =>
      refine tells_of_reads (reads_token fun s hs => ⟨.empty s.position, ?_, rfl⟩)
      have hkind : s.kind = .sign .semicolon := hs.kind
      rw [statementOf, hkind]
  | importNames names source pos =>
      obtain ⟨rfl, hnames⟩ := hwell
      refine (tells_of_reads (reads_importStatement hnames source pos depth before rest)).chosen
        (k := .keyword .lao) rfl fun s hkind => ?_
      rw [statementOf, hkind]
      rfl
  | exportDecl t pos =>
      have htop := hwell.1
      subst htop
      refine (tells_exportDecl hnested hwell hdepth depth before rest).chosen
        (k := .keyword .bhejo) rfl fun s hkind => ?_
      rw [statementOf, hkind]
      rfl
  | exportNames names pos =>
      obtain ⟨rfl, hnames⟩ := hwell
      refine (tells_of_reads (reads_exportNames hnames pos (nested true) depth before rest)).chosen
        (k := .keyword .bhejo) rfl fun s hkind => ?_
      rw [statementOf, hkind]
      rfl

end Nested

theorem tells_declarationWithin (n : Nat) : TellsNested (declarationWithin n) n := by
  induction n with
  | zero =>
      intro topLevel t _ hdepth
      have hpos := t.depth_pos
      omega
  | succ n ih => exact tells_statementOf (steady_declarationWithin n) ih

/-- **A statement is read back from its items, or misread.** -/
theorem tells_declaration {topLevel : Bool} {t : Statement} (hwell : t.WellFormed topLevel)
    (depth : Nat) (before : List Char) {rest : List Item}
    (hrest : t.isOpen = true → Item.kindOf rest ≠ .keyword .warna) :
    Tells (declaration topLevel) (t.items depth before ++ rest) rest t.misread (Statement.Same t)
      (Statement.Differs t) := by
  refine tells_bounded (tells_declarationWithin _ topLevel t hwell ?_ depth before rest hrest)
  have hdepth := Statement.depth_le_length depth before t
  rw [List.length_append]
  omega

end Parser

end Lipi
