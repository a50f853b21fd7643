import Lipi.Proofs.Parser.Steady
import Lipi.Proofs.Token.Shows
import Mathlib.Data.List.Forall2

set_option autoImplicit false

/-! # Reading items

What the shared steps of the readers do on a stream that shows items. `Parser.Reads x is rest P`
says that **on a stream that shows `is`, the reader `x` succeeds with a result that satisfies `P`,
stops where the stream shows `rest`, and records no error**. Such statements compose along the
sequence of steps (`reads_bind`), so that a construct is read back by reading back its parts. Where
a part is misread, the reader fails, gives something wrong or records an error, and nothing behind
that part mends it (`Parser.Tells`).
-/

namespace Lipi

namespace Parser

open Lipi.Stream (Shows)

variable {α β : Type}

/-- The reader takes the items up to `rest`. -/
def Reads (x : Parser α) (is rest : List Item) (P : α → Prop) : Prop :=
  ∀ s, Shows is s → ∃ a s', x s = .ok a s' ∧ P a ∧ Shows rest s' ∧ s'.errors = s.errors

theorem reads_bind {x : Parser α} {f : α → Parser β} {is js ks : List Item} {P : α → Prop}
    {Q : β → Prop} (hx : Reads x is js P) (hf : ∀ a, P a → Reads (f a) js ks Q) :
    Reads (x >>= f) is ks Q := by
  intro s hs
  obtain ⟨a, s', hrun, ha, hs', herrors⟩ := hx s hs
  obtain ⟨b, s'', hrun', hb, hs'', herrors'⟩ := hf a ha s' hs'
  refine ⟨b, s'', ?_, hb, hs'', herrors'.trans herrors⟩
  rw [bind_of_ok hrun, hrun']

theorem reads_pure {a : α} {is : List Item} {P : α → Prop} (h : P a) :
    Reads (pure a) is is P :=
  fun s hs => ⟨a, s, rfl, h, hs, rfl⟩

theorem reads_get {is : List Item} : Reads get is is (Shows is) :=
  fun s hs => ⟨s, s, rfl, hs, hs, rfl⟩

theorem Reads.mono {x : Parser α} {is rest : List Item} {P Q : α → Prop} (h : Reads x is rest P)
    (hPQ : ∀ a, P a → Q a) : Reads x is rest Q := by
  intro s hs
  obtain ⟨a, s', hrun, ha, hs', herrors⟩ := h s hs
  exact ⟨a, s', hrun, hPQ a ha, hs', herrors⟩

/-- A reader that does the same on these streams. -/
theorem Reads.congr {x y : Parser α} {is rest : List Item} {P : α → Prop} (h : Reads y is rest P)
    (heq : ∀ s, Shows is s → x s = y s) : Reads x is rest P := by
  intro s hs
  rw [heq s hs]
  exact h s hs

/-- A stream gives as many steps as it shows items, and a few more. -/
theorem reads_bounded {reader : Nat → Parser α} {is rest : List Item} {P : α → Prop}
    (h : Reads (reader (is.length + 5)) is rest P) : Reads (bounded reader) is rest P := by
  intro s hs
  show ∃ a s', reader s.bound s = .ok a s' ∧ _
  rw [hs.bound]
  exact h s hs

/-! ## Single tokens -/

/-- The current token is taken. -/
theorem reads_token {x : Parser α} {i : Item} {is : List Item} {P : α → Prop}
    (h : ∀ s, Shows (i :: is) s → ∃ a, x s = .ok a s.advance ∧ P a) :
    Reads x (i :: is) is P := by
  intro s hs
  obtain ⟨a, hrun, ha⟩ := h s hs
  exact ⟨a, s.advance, hrun, ha, hs.advance, s.advance_errors⟩

theorem reads_advance {i : Item} {is : List Item} : Reads advance (i :: is) is fun _ => True :=
  reads_token fun s _ => ⟨s.peek, rfl, trivial⟩

theorem reads_consume_sign {before : List Char} {sign : Sign} {expectation : String}
    {is : List Item} :
    Reads (consume (.sign sign) expectation) (.sign before sign :: is) is fun _ => True := by
  refine reads_token fun s hs => ⟨s.peek, ?_, trivial⟩
  unfold consume
  rw [if_pos ((s.check_sign sign).mpr hs.kind)]

theorem reads_consume_keyword {before : List Char} {k : Keyword} {expectation : String}
    {is : List Item} :
    Reads (consume (.keyword k) expectation) (.keyword before k :: is) is fun _ => True := by
  refine reads_token fun s hs => ⟨s.peek, ?_, trivial⟩
  unfold consume
  rw [if_pos ((s.check_keyword k).mpr hs.kind)]

theorem reads_accept_sign {before : List Char} {sign : Sign} {is : List Item} :
    Reads (accept (.sign sign)) (.sign before sign :: is) is (· = true) := by
  refine reads_token fun s hs => ⟨true, ?_, rfl⟩
  unfold accept
  rw [if_pos ((s.check_sign sign).mpr hs.kind)]

theorem reads_accept_keyword {before : List Char} {k : Keyword} {is : List Item} :
    Reads (accept (.keyword k)) (.keyword before k :: is) is (· = true) := by
  refine reads_token fun s hs => ⟨true, ?_, rfl⟩
  unfold accept
  rw [if_pos ((s.check_keyword k).mpr hs.kind)]

theorem reads_identifier {before : List Char} {name expectation : String} (h : IsName name)
    {is : List Item} :
    Reads (identifier expectation) (.word before name :: is) is (· = name) := by
  refine reads_token fun s hs => ⟨name, ?_, rfl⟩
  have hkind : s.kind = .identifier name := hs.kind.trans h.wordKind
  unfold identifier
  rw [hkind]

theorem reads_memberName {before : List Char} {name expectation : String} {is : List Item} :
    Reads (memberName expectation) (.word before name :: is) is (· = name) := by
  refine reads_token fun s hs => ⟨s.peek.lexeme, ?_, hs.peek.2⟩
  have hword : s.peek.isWord = true := by
    apply Token.isWord_of_wordKind
    rw [hs.peek.2]
    exact hs.kind
  unfold memberName
  rw [if_pos hword]

theorem reads_boundary {before : List Char} {what : String} {is : List Item} :
    Reads (boundary what) (.sign before .semicolon :: is) is fun _ => True := by
  refine reads_token fun s hs => ⟨(), ?_, trivial⟩
  unfold boundary
  rw [if_pos ((s.check_sign .semicolon).mpr hs.kind)]

/-! ## Tokens that are not there -/

theorem reads_accept_sign_not {sign : Sign} {is : List Item} (h : Item.kindOf is ≠ .sign sign) :
    Reads (accept (.sign sign)) is is (· = false) := by
  intro s hs
  refine ⟨false, s, ?_, rfl, hs, rfl⟩
  unfold accept
  rw [if_neg]
  rw [s.check_sign sign, hs.kindOf]
  exact h

theorem reads_accept_keyword_not {k : Keyword} {is : List Item} (h : Item.kindOf is ≠ .keyword k) :
    Reads (accept (.keyword k)) is is (· = false) := by
  intro s hs
  refine ⟨false, s, ?_, rfl, hs, rfl⟩
  unfold accept
  rw [if_neg]
  rw [s.check_keyword k, hs.kindOf]
  exact h

end Parser

/-! ## Lists -/

namespace Item

variable {α : Type}

/-- The items of a list, with commas between the elements. -/
def separated (render : List Char → α → List Item) (before : List Char) : List α → List Item
  | [] => []
  | [x] => render before x
  | x :: xs => render before x ++ .sign [] .comma :: separated render [' '] xs

theorem separated_cons_cons (render : List Char → α → List Item) (before : List Char) (x y : α)
    (xs : List α) : separated render before (x :: y :: xs)
      = render before x ++ .sign [] .comma :: separated render [' '] (y :: xs) := rfl

/-- There is a comma in front of every element but the first. -/
theorem length_le_separated (render : List Char → α → List Item) (before : List Char) (x : α)
    (xs : List α) : xs.length ≤ (separated render before (x :: xs)).length := by
  induction xs generalizing before x with
  | nil => exact Nat.zero_le _
  | cons y xs ih =>
      have hrest := ih [' '] y
      rw [separated_cons_cons, List.length_append, List.length_cons, List.length_cons]
      omega

end Item

namespace Parser

open Lipi.Stream (Shows)

variable {α : Type} {item : Parser α} {render : List Char → α → List Item} {Q : α → α → Prop}
  {closing : Sign} {last : List Char} {context : String}

/-- Elements that are read back one by one are read back as a list, up to the closing sign. -/
theorem reads_items (before : List Char) {x : α} {xs : List α} {rest : List Item}
    (hcomma : closing ≠ .comma)
    (hitem : ∀ y ∈ x :: xs, ∀ b b' sign rest, sign = .comma ∨ sign = closing →
      Reads item (render b y ++ .sign b' sign :: rest) (.sign b' sign :: rest) (Q y))
    {n : Nat} (hn : xs.length < n) (previous : List α) :
    Reads (items item closing context n previous)
      (Item.separated render before (x :: xs) ++ .sign last closing :: rest) rest
      fun ys => ∃ zs, ys = previous.reverse ++ zs ∧ List.Forall₂ Q (x :: xs) zs := by
  induction xs generalizing x before n previous with
  -- the last element has no comma behind it; there is a comma behind every other one
  | nil =>
      obtain ⟨n, rfl⟩ : ∃ m, n = m + 1 := ⟨n - 1, by omega⟩
      refine reads_bind (hitem x List.mem_cons_self before last closing rest (Or.inr rfl)) ?_
      intro y hy
      refine reads_bind (reads_accept_sign_not ?_) ?_
      · exact fun h => hcomma (TokenKind.sign.inj h)
      · rintro _ rfl
        refine reads_bind reads_consume_sign ?_
        intro _ _
        refine reads_pure ⟨[y], ?_, .cons hy .nil⟩
        simp
  | cons x' xs ih =>
      obtain ⟨n, rfl⟩ : ∃ m, n = m + 1 := ⟨n - 1, by omega⟩
      rw [Item.separated_cons_cons, List.append_assoc]
      refine reads_bind (hitem x List.mem_cons_self before [] .comma _ (Or.inl rfl)) ?_
      intro y hy
      refine reads_bind reads_accept_sign ?_
      rintro _ rfl
      have hrest : ∀ z ∈ x' :: xs, ∀ b b' sign rest, sign = .comma ∨ sign = closing →
          Reads item (render b z ++ .sign b' sign :: rest) (.sign b' sign :: rest) (Q z) :=
        fun z hz => hitem z (List.mem_cons_of_mem x hz)
      refine (ih [' '] hrest (by simpa using hn) (y :: previous)).mono ?_
      rintro ys ⟨zs, rfl, hzs⟩
      refine ⟨y :: zs, ?_, .cons hy hzs⟩
      simp

/-- **A list in brackets is read back** if its elements are, and if none of them starts with the
closing sign. -/
theorem reads_commaSeparated {before : List Char} {xs : List α} {rest : List Item}
    (hcomma : closing ≠ .comma)
    (hstart : ∀ y ∈ xs, ∀ rest, Item.kindOf (render before y ++ rest) ≠ .sign closing)
    (hitem : ∀ y ∈ xs, ∀ b b' sign rest, sign = .comma ∨ sign = closing →
      Reads item (render b y ++ .sign b' sign :: rest) (.sign b' sign :: rest) (Q y)) :
    Reads (commaSeparated item closing context)
      (Item.separated render before xs ++ .sign last closing :: rest) rest
      fun ys => List.Forall₂ Q xs ys := by
  cases xs with
  | nil =>
      refine reads_bind reads_accept_sign ?_
      rintro _ rfl
      exact reads_pure .nil
  | cons x xs =>
      -- the list is not taken for an empty one
      have hfirst : Item.kindOf (Item.separated render before (x :: xs) ++ .sign last closing :: rest)
          ≠ .sign closing := by
        cases xs with
        | nil => exact hstart x List.mem_cons_self _
        | cons x' xs =>
            rw [Item.separated_cons_cons, List.append_assoc]
            exact hstart x List.mem_cons_self _
      refine reads_bind (reads_accept_sign_not hfirst) ?_
      rintro _ rfl
      have hbound : xs.length
          < (Item.separated render before (x :: xs) ++ .sign last closing :: rest).length + 5 := by
        have hcommas := Item.length_le_separated render before x xs
        rw [List.length_append]
        omega
      rw [if_neg Bool.false_ne_true]
      refine reads_bounded ?_
      refine (reads_items before hcomma hitem hbound []).mono ?_
      rintro ys ⟨zs, rfl, hzs⟩
      exact hzs

/-! ## Misreadings -/

variable {β : Type}

/-- If the reader gives a result at all, the result satisfies `Q` or an error has been recorded. -/
def Spoils (x : Parser α) (is : List Item) (Q : α → Prop) : Prop :=
  ∀ s, Shows is s → ∀ a s', x s = .ok a s' → Q a ∨ s.errors.size < s'.errors.size

/-- The reader takes the items up to `rest` if they are not misread, with a result that satisfies
`P`; if they are, its result satisfies `Q` or an error has been recorded. -/
structure Tells (x : Parser α) (is rest : List Item) (misread : Bool) (P Q : α → Prop) : Prop where
  reads : misread = false → Reads x is rest P
  spoils : misread = true → Spoils x is Q

theorem tells_of_reads {x : Parser α} {is rest : List Item} {P Q : α → Prop}
    (h : Reads x is rest P) : Tells x is rest false P Q :=
  ⟨fun _ => h, fun htrue => absurd htrue Bool.false_ne_true⟩

theorem Tells.congr {x y : Parser α} {is rest : List Item} {misread : Bool} {P Q : α → Prop}
    (h : Tells y is rest misread P Q) (heq : ∀ s, Shows is s → x s = y s) :
    Tells x is rest misread P Q := by
  refine ⟨fun hfalse => (h.reads hfalse).congr heq, fun htrue s hs a s' hrun => ?_⟩
  rw [heq s hs] at hrun
  exact h.spoils htrue s hs a s' hrun

/-- A reader that recovers from the errors of another one, and records them. -/
theorem Tells.recovers {x y : Parser α} {is rest : List Item} {misread : Bool} {P Q : α → Prop}
    (h : Tells y is rest misread P Q)
    (hok : ∀ s a s', Shows is s → y s = .ok a s' → x s = .ok a s')
    (hrecorded : ∀ s a s', Shows is s → x s = .ok a s' →
      y s = .ok a s' ∨ s.errors.size < s'.errors.size) : Tells x is rest misread P Q := by
  refine ⟨fun hfalse s hs => ?_, fun htrue s hs a s' hrun => ?_⟩
  · obtain ⟨a, s', hrun, ha⟩ := h.reads hfalse s hs
    exact ⟨a, s', hok s a s' hs hrun, ha⟩
  · rcases hrecorded s a s' hs hrun with hrun' | hgrown
    · exact h.spoils htrue s hs a s' hrun'
    · exact Or.inr hgrown

/-- A list that is read behind the ones read so far has the last of them in front. -/
theorem Tells.cons {x : Parser (List α)} {is rest : List Item} {misread : Bool} {a : α}
    {previous : List α} {P Q P' Q' : List α → Prop}
    (h : Tells x is rest misread (fun bs => ∃ cs, bs = (a :: previous).reverse ++ cs ∧ P cs)
      fun bs => ∃ cs, bs = (a :: previous).reverse ++ cs ∧ Q cs)
    (hP : ∀ cs, P cs → P' (a :: cs)) (hQ : ∀ cs, Q cs → Q' (a :: cs)) :
    Tells x is rest misread (fun bs => ∃ cs, bs = previous.reverse ++ cs ∧ P' cs)
      fun bs => ∃ cs, bs = previous.reverse ++ cs ∧ Q' cs := by
  refine ⟨fun hfalse => (h.reads hfalse).mono ?_, fun htrue s hs bs s' hrun => ?_⟩
  · rintro bs ⟨cs, rfl, hcs⟩
    exact ⟨a :: cs, by simp, hP cs hcs⟩
  · rcases h.spoils htrue s hs bs s' hrun with ⟨cs, rfl, hcs⟩ | hgrown
    · exact Or.inl ⟨a :: cs, by simp, hQ cs hcs⟩
    · exact Or.inr hgrown

/-- A reader that is chosen by the kind of the first item. -/
theorem Tells.chosen {x y : Parser α} {is rest : List Item} {misread : Bool} {P Q : α → Prop}
    {k : TokenKind} (h : Tells y is rest misread P Q) (hfirst : Item.kindOf is = k)
    (hchoice : ∀ s, s.kind = k → x s = y s) : Tells x is rest misread P Q :=
  h.congr fun s hs => hchoice s (hs.kindOf.trans hfirst)

theorem tells_bounded {reader : Nat → Parser α} {is rest : List Item} {misread : Bool}
    {P Q : α → Prop} (h : Tells (reader (is.length + 5)) is rest misread P Q) :
    Tells (bounded reader) is rest misread P Q := by
  refine h.congr fun s hs => ?_
  show reader s.bound s = _
  rw [hs.bound]

/-- A step that reads its items back comes first. -/
theorem tells_after {x : Parser α} {f : α → Parser β} {is js rest : List Item} {misread : Bool}
    {P : α → Prop} {P' Q' : β → Prop} (hx : Reads x is js P)
    (hf : ∀ a, P a → Tells (f a) js rest misread P' Q') :
    Tells (x >>= f) is rest misread P' Q' := by
  refine ⟨fun hfalse => reads_bind hx fun a ha => (hf a ha).reads hfalse, ?_⟩
  intro htrue s hs b s'' hrun
  obtain ⟨a, s', hstep, ha, hs', herrors⟩ := hx s hs
  rw [bind_of_ok hstep] at hrun
  rw [← herrors]
  exact (hf a ha).spoils htrue s' hs' b s'' hrun

/-- **A misreading is not mended**: what is wrong with the result of a step is wrong with the whole
result, and an error that has been recorded stays recorded. -/
theorem tells_bind {x : Parser α} {f : α → Parser β} {is js rest : List Item}
    {misread misread' : Bool} {P Q : α → Prop} {P' Q' : β → Prop}
    (hx : Tells x is js misread P Q) (hf : ∀ a, P a → Tells (f a) js rest misread' P' Q')
    (hsteady : ∀ a, Steady (f a)) (hwrong : ∀ a s b s', Q a → f a s = .ok b s' → Q' b) :
    Tells (x >>= f) is rest (misread || misread') P' Q' := by
  cases hmisread : misread with
  | false =>
      rw [Bool.false_or]
      exact tells_after (hx.reads hmisread) hf
  | true =>
      refine ⟨fun hfalse => Bool.noConfusion hfalse, ?_⟩
      intro _ s hs b s'' hrun
      obtain ⟨a, s', hstep, hrest⟩ := bind_ok hrun
      -- wrong results stay wrong by hypothesis, and recorded errors because the rest is steady
      rcases hx.spoils hmisread s hs a s' hstep with ha | herrors
      · exact Or.inl (hwrong a s' b s'' ha hrest)
      · exact Or.inr (Nat.lt_of_lt_of_le herrors ((hsteady a).ok hrest).errors)

/-- Steps that read their items back come last. -/
theorem tells_then {x : Parser α} {f : α → Parser β} {is js rest : List Item} {misread : Bool}
    {P Q : α → Prop} {P' Q' : β → Prop} (hx : Tells x is js misread P Q)
    (hf : ∀ a, P a → Reads (f a) js rest P') (hsteady : ∀ a, Steady (f a))
    (hwrong : ∀ a s b s', Q a → f a s = .ok b s' → Q' b) :
    Tells (x >>= f) is rest misread P' Q' := by
  have hboth := tells_bind hx (fun a ha => tells_of_reads (hf a ha)) hsteady hwrong
  rw [Bool.or_false] at hboth
  exact hboth

end Parser

end Lipi
