import Lipi.Proofs.Token.Lexed
import Mathlib.Computability.Language

set_option autoImplicit false

/-! # The lexical grammar

The pieces of a text, gaps and lexemes alike, are given by rules. Each `Rule` is a regular language,
written here as one; what a text of a rule is, its `piece?`, depends on the text alone. **No text
belongs to two rules** (`Rule.unique`), and the measures of the lexer are lengths in these languages:
where a string or a comment is closed, where a numeral ends.
-/

namespace Lipi.Lexer

open Computability

/-! ## Rules -/

/-- The texts of one character of a class. -/
def one (p : Char → Bool) : Language Char :=
  {w | ∃ c, p c = true ∧ w = [c]}

/-- A character of one class, and any number of characters of another behind it. -/
def run (p q : Char → Bool) : Language Char :=
  one p * (one q)∗

/-- What stands between the quotes of a string: characters other than quote and backslash, and
backslashes, each with the character behind it. -/
def stringBody : Language Char :=
  one (fun c => c != '"' && c != '\\') + {['\\']} * one fun _ => true

/-- Stars, of which there is at least one. -/
def stars : Language Char :=
  run (· == '*') (· == '*')

/-- What stands between the opening of a block comment and the stars that close it: characters other
than stars, and stars with neither a star nor a slash behind them. -/
def commentBody : Language Char :=
  one (· != '*') + stars * one fun c => c != '*' && c != '/'

/-- A block comment behind its opening. -/
def commentTail : Language Char :=
  commentBody∗ * stars * {['/']}

/-- The rules of the lexical grammar. -/
inductive Rule where
  | blanks
  | lineComment
  | blockComment
  /-- The opening of a block comment that is not closed. -/
  | openComment
  | number
  | string
  | word
  | sign (sign : Sign)
deriving DecidableEq

namespace Rule

/-- The texts that a rule describes. -/
def language : Rule → Language Char
  | blanks => run isBlank isBlank
  | lineComment => {['/', '/']} * (one (· ≠ '\n'))∗
  | blockComment => {['/', '*']} * commentTail
  | openComment => {['/', '*']}
  | number => run Char.isDigit Char.isDigit * (1 + {['.']} * run Char.isDigit Char.isDigit)
  | string => {['"']} * (stringBody∗ * {['"']})
  | word => run isWordStart isWordPart
  | sign s => {s.spelling.toList}

/-- What a text of a rule is: a gap, or a token whose kind the text says. The opening of a comment is
neither, and a numeral that is too large makes no token. -/
def piece? : Rule → List Char → Option Piece
  | blanks, _ | lineComment, _ | blockComment, _ => some .gap
  | openComment, _ => none
  | number, w =>
    ((Number.read? (String.ofList w)).filter Number.isFinite).map fun value => .token (.number value)
  | string, w => some (.token (.string (String.ofList (Text.unescape w.tail.dropLast))))
  | word, w => some (.token (wordKind (String.ofList w)))
  | sign s, _ => some (.token (.sign s))

end Rule

/-- The text `w` is a piece of a rule in front of `rest`, and **no rule describes a longer text at
its place**. -/
structure Longest (r : Rule) (w rest : List Char) : Prop where
  mem : w ∈ r.language
  longest : ∀ r' w', w' ∈ Rule.language r' → w' <+: w ++ rest → w'.length ≤ w.length

/-- What follows a piece may end earlier. -/
theorem Longest.shorten {r : Rule} {w rest rest' : List Char} (h : Longest r w (rest ++ rest')) :
    Longest r w rest := by
  refine ⟨h.mem, fun r' w' hmem hbegins => h.longest r' w' hmem ?_⟩
  rw [← List.append_assoc]
  exact hbegins.trans (List.prefix_append _ _)

/-! ## Runs of a class -/

section Runs

variable {p q : Char → Bool}

theorem mem_single {v w : List Char} : w ∈ ({v} : Language Char) ↔ w = v :=
  Iff.rfl

theorem mem_many {w : List Char} : w ∈ (one q)∗ ↔ ∀ c ∈ w, q c = true := by
  rw [Language.mem_kstar]
  constructor
  · rintro ⟨ws, rfl, hws⟩ c hc
    obtain ⟨v, hv, hcv⟩ := List.mem_flatten.mp hc
    obtain ⟨d, hd, rfl⟩ := hws v hv
    rw [List.mem_singleton.mp hcv]
    exact hd
  · intro h
    refine ⟨w.map fun c => [c], ?_, fun v hv => ?_⟩
    · induction w with
      | nil => rfl
      | cons c cs ih =>
          rw [List.map_cons, List.flatten_cons, ← ih (fun d hd => h d (List.mem_cons_of_mem _ hd))]
          rfl
    · obtain ⟨c, hc, rfl⟩ := List.mem_map.mp hv
      exact ⟨c, h c hc, rfl⟩

theorem mem_run {w : List Char} :
    w ∈ run p q ↔ ∃ c cs, w = c :: cs ∧ p c = true ∧ ∀ d ∈ cs, q d = true := by
  unfold run
  rw [Language.mem_mul]
  constructor
  · rintro ⟨_, ⟨c, hc, rfl⟩, cs, hcs, rfl⟩
    exact ⟨c, cs, rfl, hc, mem_many.mp hcs⟩
  · rintro ⟨c, cs, rfl, hc, hcs⟩
    exact ⟨[c], ⟨c, hc, rfl⟩, cs, mem_many.mpr hcs, rfl⟩

/-- The longest run in front of a text. -/
theorem takeWhile_mem_run {c : Char} (hc : p c = true) (cs : List Char) :
    c :: cs.takeWhile q ∈ run p q :=
  mem_run.mpr ⟨c, _, rfl, hc, fun _ hd => List.mem_takeWhile_imp hd⟩

theorem length_le_takeWhile {ds cs : List Char} (hbegins : ds <+: cs) (hds : ∀ d ∈ ds, q d = true) :
    ds.length ≤ (cs.takeWhile q).length := by
  obtain ⟨rest, rfl⟩ := hbegins
  rw [List.takeWhile_append_of_pos hds, List.length_append]
  exact Nat.le_add_right _ _

theorem length_le_of_mem_run {c : Char} {cs w : List Char} (hw : w ∈ run p q)
    (hbegins : w <+: c :: cs) : w.length ≤ (cs.takeWhile q).length + 1 := by
  obtain ⟨d, ds, rfl, -, hds⟩ := mem_run.mp hw
  exact Nat.succ_le_succ (length_le_takeWhile (List.cons_prefix_cons.mp hbegins).2 hds)

end Runs

/-! ## Strings -/

/-- A closed string is measured up to its closing quote. -/
theorem stringLength?_append {w : List Char} (hw : w ∈ stringBody∗) (rest : List Char) (n : Nat) :
    stringLength? n (w ++ '"' :: rest) = some (n + w.length + 1) := by
  obtain ⟨ws, rfl, hws⟩ := Language.mem_kstar.mp hw
  clear hw
  -- the body is a row of plain characters and of pairs that a backslash starts
  induction ws generalizing n with
  | nil => rfl
  | cons v ws ih =>
      have hrest := fun n => ih n (fun y hy => hws y (List.mem_cons_of_mem _ hy))
      rw [List.flatten_cons, List.append_assoc]
      rcases hws v List.mem_cons_self with ⟨c, hc, rfl⟩ | ⟨_, rfl, _, ⟨d, -, rfl⟩, rfl⟩
      · rw [Bool.and_eq_true, bne_iff_ne, bne_iff_ne] at hc
        have hstep : stringLength? n ([c] ++ (ws.flatten ++ '"' :: rest)) =
            stringLength? (n + 1) (ws.flatten ++ '"' :: rest) := by
          rw [List.singleton_append, stringLength?.eq_def]
          split
          · next heq => cases heq
          · next heq =>
            injection heq with hhead
            exact absurd hhead hc.1
          · next heq =>
            injection heq with hhead
            exact absurd hhead hc.2
          · next heq =>
            injection heq with _ htail
            rw [htail]
        rw [hstep, hrest, List.length_append, List.length_singleton]
        congr 1
        omega
      · show stringLength? (n + 2) (ws.flatten ++ '"' :: rest) = _
        rw [hrest, List.length_append]
        simp only [List.cons_append, List.nil_append, List.length_cons, List.length_nil]
        congr 1
        omega

/-- The measure of a string is the length of its body and of the closing quote. -/
theorem mem_of_stringLength? {cs : List Char} {n m : Nat} (h : stringLength? n cs = some m) :
    ∃ w rest, w ∈ stringBody∗ ∧ cs = w ++ '"' :: rest ∧ m = n + w.length + 1 := by
  have hcons : ∀ {v w : List Char}, v ∈ stringBody → w ∈ stringBody∗ → v ++ w ∈ stringBody∗ := by
    intro v w hv hw
    obtain ⟨ws, rfl, hws⟩ := Language.mem_kstar.mp hw
    exact Language.mem_kstar.mpr ⟨v :: ws, rfl, List.forall_mem_cons.mpr ⟨hv, hws⟩⟩
  fun_induction stringLength? n cs with
  | case1 n => cases h
  | case2 n rest =>
      cases h
      exact ⟨[], rest, Language.nil_mem_kstar _, rfl, rfl⟩
  | case3 n d rest ih =>
      obtain ⟨w, rest', hw, rfl, rfl⟩ := ih h
      refine ⟨['\\', d] ++ w, rest', hcons ?_ hw, rfl, by simp; omega⟩
      exact Or.inr ⟨['\\'], rfl, [d], ⟨d, rfl, rfl⟩, rfl⟩
  | case4 n c rest hquote hslash ih =>
      obtain ⟨w, rest', hw, rfl, rfl⟩ := ih h
      -- a backslash here would have nothing behind it
      have hc : (c != '"' && c != '\\') = true := by
        rw [Bool.and_eq_true, bne_iff_ne, bne_iff_ne]
        refine ⟨hquote, fun heq => ?_⟩
        cases w with
        | nil => exact hslash _ _ heq rfl
        | cons d ds => exact hslash _ _ heq rfl
      exact ⟨[c] ++ w, rest', hcons (Or.inl ⟨c, hc, rfl⟩) hw, rfl, by simp; omega⟩

/-! ## Block comments -/

/-- Stars, and then a character that is none. -/
theorem commentLength?_stars {ss : List Char} (hss : ∀ c ∈ ss, (c == '*') = true) {d : Char}
    (hstar : d ≠ '*') (hslash : d ≠ '/') (rest : List Char) (n : Nat) :
    commentLength? n (ss ++ d :: rest) = commentLength? (n + ss.length + 1) rest := by
  -- what does not close the comment is passed over
  have hskip : ∀ {c : Char} {ds : List Char} (n : Nat), (∀ es, c = '*' → ds ≠ '/' :: es) →
      commentLength? n (c :: ds) = commentLength? (n + 1) ds := by
    intro c ds n h
    rw [commentLength?.eq_def]
    split
    · next heq => cases heq
    · next heq =>
      injection heq with hhead htail
      exact absurd htail (h _ hhead)
    · next heq =>
      injection heq with _ htail
      rw [htail]
  induction ss generalizing n with
  | nil => exact hskip n fun _ heq => absurd heq hstar
  | cons s ss ih =>
      rw [List.cons_append, hskip n, ih (fun c hc => hss c (List.mem_cons_of_mem _ hc))]
      · rw [List.length_cons]
        congr 1
        omega
      -- behind a star comes a star or `d`, and neither closes the comment
      · intro es _ heq
        cases ss with
        | nil =>
            injection heq with hhead
            exact hslash hhead
        | cons t ts =>
            injection heq with hhead
            have ht := hss t (List.mem_cons_of_mem _ List.mem_cons_self)
            rw [hhead] at ht
            cases ht

/-- Stars and a slash close a comment. -/
theorem commentLength?_close {ss : List Char} (hss : ∀ c ∈ ss, (c == '*') = true)
    (rest : List Char) (n : Nat) :
    commentLength? n ('*' :: ss ++ '/' :: rest) = some (n + ss.length + 2) := by
  induction ss generalizing n with
  | nil => rfl
  | cons s ss ih =>
      obtain rfl : s = '*' := by simpa using hss s List.mem_cons_self
      have hrest := ih (fun c hc => hss c (List.mem_cons_of_mem _ hc)) (n + 1)
      rw [List.length_cons, show n + (ss.length + 1) + 2 = n + 1 + ss.length + 2 by omega, ← hrest]
      rfl

/-- A closed comment is measured up to its closing. -/
theorem commentLength?_append {w : List Char} (hw : w ∈ commentTail) (rest : List Char) (n : Nat) :
    commentLength? n (w ++ rest) = some (n + w.length) := by
  obtain ⟨_, ⟨body, hbody, ss, hss, rfl⟩, _, rfl, rfl⟩ := hw
  obtain ⟨c, ss, rfl, hc, hclosing⟩ := mem_run.mp hss
  obtain rfl : c = '*' := by simpa using hc
  obtain ⟨ws, rfl, hws⟩ := Language.mem_kstar.mp hbody
  clear hbody
  -- the body is a row of characters that are no star, and of rows of stars before one that is no
  -- slash
  induction ws generalizing n with
  | nil =>
      have hclose := commentLength?_close hclosing rest n
      simp only [List.flatten_nil, List.nil_append, List.append_assoc, List.cons_append,
        List.length_cons, List.length_append, List.length_nil] at hclose ⊢
      rw [hclose]
      congr 1
  | cons v ws ih =>
      have hrest := fun n => ih n (fun y hy => hws y (List.mem_cons_of_mem _ hy))
      simp only [List.flatten_cons, List.append_assoc] at hrest ⊢
      rcases hws v List.mem_cons_self with ⟨d, hd, rfl⟩ | ⟨_, hts, _, ⟨d, hd, rfl⟩, rfl⟩
      · rw [bne_iff_ne] at hd
        have hstep : ∀ ds, commentLength? n (d :: ds) = commentLength? (n + 1) ds := by
          intro ds
          rw [commentLength?.eq_def]
          split
          · next heq => cases heq
          · next heq =>
            injection heq with hhead
            exact absurd hhead hd
          · next heq =>
            injection heq with _ htail
            rw [htail]
        rw [List.singleton_append, hstep, hrest]
        simp only [List.length_append, List.length_singleton]
        congr 1
        omega
      · obtain ⟨t, ts, rfl, ht, hts⟩ := mem_run.mp hts
        rw [Bool.and_eq_true, bne_iff_ne, bne_iff_ne] at hd
        have hall : ∀ c ∈ t :: ts, (c == '*') = true := List.forall_mem_cons.mpr ⟨ht, hts⟩
        rw [List.append_assoc, List.singleton_append, commentLength?_stars hall hd.1 hd.2, hrest]
        simp only [List.length_append, List.length_cons, List.length_nil]
        congr 1
        omega

theorem commentTail_cons {v w : List Char} (hv : v ∈ commentBody) (hw : w ∈ commentTail) :
    v ++ w ∈ commentTail := by
  obtain ⟨_, ⟨body, hbody, ss, hss, rfl⟩, e, he, rfl⟩ := hw
  obtain ⟨ws, rfl, hws⟩ := Language.mem_kstar.mp hbody
  refine ⟨(v :: ws).flatten ++ ss, ⟨_, ?_, ss, hss, rfl⟩, e, he, by simp⟩
  exact Language.mem_kstar.mpr ⟨v :: ws, rfl, List.forall_mem_cons.mpr ⟨hv, hws⟩⟩

/-- A star in front that does not close the comment belongs to it. -/
theorem commentTail_star {w : List Char} (hw : w ∈ commentTail) (hclose : ∀ cs, w ≠ '/' :: cs) :
    '*' :: w ∈ commentTail := by
  obtain ⟨_, ⟨body, hbody, ss, hss, rfl⟩, e, he, rfl⟩ := hw
  obtain ⟨ws, rfl, hws⟩ := Language.mem_kstar.mp hbody
  have hmore : ∀ {ts : List Char}, ts ∈ stars → '*' :: ts ∈ stars := by
    intro ts hts
    obtain ⟨t, ts, rfl, ht, hts⟩ := mem_run.mp hts
    exact mem_run.mpr ⟨'*', _, rfl, rfl, List.forall_mem_cons.mpr ⟨ht, hts⟩⟩
  cases ws with
  | nil =>
      exact ⟨[] ++ '*' :: ss, ⟨[], Language.nil_mem_kstar _, '*' :: ss, hmore hss, rfl⟩, e, he, rfl⟩
  | cons v ws =>
      obtain ⟨hv, hws⟩ := List.forall_mem_cons.mp hws
      -- the star goes to the first part of the body
      have hstar : '*' :: v ∈ commentBody := by
        rcases hv with ⟨d, hd, rfl⟩ | ⟨ts, hts, d, hd, rfl⟩
        · rw [bne_iff_ne] at hd
          refine Or.inr ⟨['*'], mem_run.mpr ⟨'*', [], rfl, rfl, by simp⟩, [d], ⟨d, ?_, rfl⟩, rfl⟩
          rw [Bool.and_eq_true, bne_iff_ne, bne_iff_ne]
          refine ⟨hd, ?_⟩
          rintro rfl
          exact hclose (ws.flatten ++ ss ++ e) (by simp)
        · exact Or.inr ⟨'*' :: ts, hmore hts, d, hd, rfl⟩
      refine ⟨(('*' :: v) :: ws).flatten ++ ss, ⟨_, ?_, ss, hss, rfl⟩, e, he, by simp⟩
      exact Language.mem_kstar.mpr ⟨('*' :: v) :: ws, rfl, List.forall_mem_cons.mpr ⟨hstar, hws⟩⟩

/-- The measure of a comment is its length behind the opening. -/
theorem mem_of_commentLength? {cs : List Char} {n m : Nat} (h : commentLength? n cs = some m) :
    ∃ w rest, w ∈ commentTail ∧ cs = w ++ rest ∧ m = n + w.length := by
  fun_induction commentLength? n cs with
  | case1 n => cases h
  | case2 n rest =>
      cases h
      refine ⟨['*', '/'], rest, ⟨[] ++ ['*'], ⟨[], Language.nil_mem_kstar _, ['*'], ?_, rfl⟩, ['/'],
        rfl, rfl⟩, rfl, rfl⟩
      exact mem_run.mpr ⟨'*', [], rfl, rfl, by simp⟩
  | case3 n c rest hclosed ih =>
      obtain ⟨w, rest', hw, rfl, rfl⟩ := ih h
      refine ⟨c :: w, rest', ?_, rfl, by simp; omega⟩
      by_cases hc : c = '*'
      · subst hc
        refine commentTail_star hw ?_
        rintro cs rfl
        exact hclosed _ rfl rfl
      · exact commentTail_cons (Or.inl ⟨c, bne_iff_ne.mpr hc, rfl⟩) hw

/-! ## Numerals -/

theorem mem_digits {w : List Char} : w ∈ run Char.isDigit Char.isDigit ↔ Number.Digits w := by
  rw [mem_run]
  constructor
  · rintro ⟨c, cs, rfl, hc, hcs⟩
    exact ⟨List.cons_ne_nil _ _, List.forall_mem_cons.mpr ⟨hc, hcs⟩⟩
  · intro h
    obtain ⟨c, cs, rfl⟩ := List.exists_cons_of_ne_nil h.nonempty
    obtain ⟨hc, hcs⟩ := List.forall_mem_cons.mp h.digit
    exact ⟨c, cs, rfl, hc, hcs⟩

theorem mem_number {w : List Char} :
    w ∈ Rule.number.language ↔ ∃ whole fraction, Number.Digits whole ∧
      (∀ c ∈ fraction, c.isDigit = true) ∧ w = Number.numeral whole fraction := by
  constructor
  · rintro ⟨whole, hwhole, _, rfl | ⟨_, rfl, fraction, hfraction, rfl⟩, rfl⟩
    · exact ⟨whole, [], mem_digits.mp hwhole, by simp, List.append_nil whole⟩
    · have hdigits := mem_digits.mp hfraction
      obtain ⟨c, cs, rfl⟩ := List.exists_cons_of_ne_nil hdigits.nonempty
      exact ⟨whole, c :: cs, mem_digits.mp hwhole, hdigits.digit, rfl⟩
  · rintro ⟨whole, fraction, hwhole, hfraction, rfl⟩
    refine ⟨whole, mem_digits.mpr hwhole, ?_⟩
    cases fraction with
    | nil => exact ⟨[], Or.inl rfl, List.append_nil whole⟩
    | cons c cs =>
        have hdigits : Number.Digits (c :: cs) := ⟨List.cons_ne_nil _ _, hfraction⟩
        exact ⟨'.' :: c :: cs, Or.inr ⟨['.'], rfl, c :: cs, mem_digits.mpr hdigits, rfl⟩, rfl⟩

/-- A numeral starts with a digit. -/
theorem numeral_eq_cons {whole : List Char} (hwhole : Number.Digits whole) (fraction : List Char) :
    ∃ c cs, Number.numeral whole fraction = c :: cs ∧ c.isDigit = true := by
  obtain ⟨c, cs, rfl⟩ := List.exists_cons_of_ne_nil hwhole.nonempty
  have hc := hwhole.digit c List.mem_cons_self
  unfold Number.numeral
  split
  · exact ⟨c, cs, rfl, hc⟩
  · exact ⟨c, _, rfl, hc⟩

/-- The measure of a numeral, by the part in front of a point and the part behind it. -/
theorem numberLength_eq {ds rest : List Char} (hds : ∀ d ∈ ds, d.isDigit = true)
    (hrest : ∀ e es, rest = e :: es → e.isDigit = false) :
    numberLength (ds ++ rest) = ds.length ∧ (∀ e es, rest = '.' :: e :: es → e.isDigit = false) ∨
      ∃ e es, rest = '.' :: e :: es ∧ e.isDigit = true ∧
        numberLength (ds ++ rest) = ds.length + 1 + ((e :: es).takeWhile Char.isDigit).length := by
  unfold numberLength
  rw [takeWhile_append_stop hds hrest]
  dsimp only
  rw [List.drop_left]
  split
  · next rest' =>
    cases rest' with
    | nil => exact Or.inl ⟨rfl, fun _ _ heq => by cases heq⟩
    | cons e es =>
        by_cases he : e.isDigit = true
        · refine Or.inr ⟨e, es, rfl, he, if_neg ?_⟩
          rw [List.takeWhile_cons_of_pos he]
          exact Nat.succ_ne_zero _
        · rw [List.takeWhile_cons_of_neg he]
          refine Or.inl ⟨rfl, fun e' es' heq => ?_⟩
          injection heq with _ htail
          injection htail with hhead
          rw [← hhead]
          exact Bool.not_eq_true _ ▸ he
  · next hpoint => exact Or.inl ⟨rfl, fun e es heq => absurd heq (hpoint _)⟩

/-- What follows a digit is digits, and then something else. -/
theorem exists_digits (cs : List Char) : ∃ ds rest, cs = ds ++ rest ∧ (∀ d ∈ ds, d.isDigit = true) ∧
    ∀ e es, rest = e :: es → e.isDigit = false := by
  refine ⟨cs.takeWhile Char.isDigit, cs.dropWhile Char.isDigit, ?_, ?_, ?_⟩
  · exact List.takeWhile_append_dropWhile.symm
  · exact fun d hd => List.mem_takeWhile_imp hd
  · intro e es heq
    have hstop := List.head?_dropWhile_not Char.isDigit cs
    rw [heq] at hstop
    simpa using hstop

theorem mem_number_take {c : Char} (hc : c.isDigit = true) (cs : List Char) :
    c :: cs.take (numberLength cs) ∈ Rule.number.language := by
  obtain ⟨ds, rest, rfl, hds, hrest⟩ := exists_digits cs
  have hwhole : Number.Digits (c :: ds) :=
    ⟨List.cons_ne_nil _ _, List.forall_mem_cons.mpr ⟨hc, hds⟩⟩
  rcases numberLength_eq hds hrest with ⟨hlength, -⟩ | ⟨e, es, rfl, he, hlength⟩
  · rw [hlength, List.take_left]
    exact mem_number.mpr ⟨c :: ds, [], hwhole, by simp, rfl⟩
  · refine mem_number.mpr ⟨c :: ds, (e :: es).takeWhile Char.isDigit, hwhole,
      fun d hd => List.mem_takeWhile_imp hd, ?_⟩
    rw [hlength, Nat.add_assoc, List.take_length_add_append, Nat.add_comm 1,
      List.take_succ_cons, take_length_takeWhile, List.takeWhile_cons_of_pos he, Number.numeral_cons]
    rfl

theorem length_le_numberLength {c : Char} {cs w : List Char} (hw : w ∈ Rule.number.language)
    (hbegins : w <+: c :: cs) : w.length ≤ numberLength cs + 1 := by
  obtain ⟨whole, fraction, hwhole, hfraction, rfl⟩ := mem_number.mp hw
  obtain ⟨d, ds', rfl⟩ := List.exists_cons_of_ne_nil hwhole.nonempty
  have hds' := (List.forall_mem_cons.mp hwhole.digit).2
  obtain ⟨ds, rest, rfl, hds, hrest⟩ := exists_digits cs
  have htake := takeWhile_append_stop hds hrest
  cases fraction with
  | nil =>
      have hle := length_le_takeWhile (List.cons_prefix_cons.mp hbegins).2 hds'
      rw [htake] at hle
      rw [Number.numeral_nil, List.length_cons]
      rcases numberLength_eq hds hrest with ⟨hlength, -⟩ | ⟨_, _, _, _, hlength⟩ <;> omega
  | cons e es =>
      rw [Number.numeral_cons, List.cons_append] at hbegins
      obtain ⟨after, hafter⟩ := (List.cons_prefix_cons.mp hbegins).2
      rw [List.append_assoc] at hafter
      -- both sides are digits up to the point
      have hsame : ds' = ds := by
        have hpoint : (ds' ++ ('.' :: e :: es ++ after)).takeWhile Char.isDigit = ds' := by
          refine takeWhile_append_stop hds' ?_
          rintro _ _ ⟨⟩
          rfl
        rw [← hpoint, hafter, htake]
      subst hsame
      obtain rfl := List.append_cancel_left hafter
      have he := hfraction e List.mem_cons_self
      rcases numberLength_eq hds hrest with ⟨-, hnone⟩ | ⟨e', es', heq, -, hlength⟩
      · rw [hnone e (es ++ after) rfl] at he
        cases he
      · injection heq with _ htail
        have hle : es.length + 1 ≤ ((e' :: es').takeWhile Char.isDigit).length := by
          rw [← htail]
          exact length_le_takeWhile (List.prefix_append (e :: es) after) hfraction
        rw [hlength, Number.numeral_cons, List.length_append, List.length_cons, List.length_cons,
          List.length_cons]
        omega

/-! ## Which rule a text belongs to -/

/-- The sign that a text is. -/
def signOf? : List Char → Option Sign
  | [c] => Sign.ofChar? c
  | [c, d] => Sign.ofPair? c d
  | _ => none

theorem signOf?_spelling (s : Sign) : signOf? s.spelling.toList = some s := by
  cases s <;> rfl

theorem signOf?_eq_some {w : List Char} {s : Sign} : signOf? w = some s ↔ w = s.spelling.toList := by
  refine ⟨fun h => ?_, fun h => h ▸ signOf?_spelling s⟩
  unfold signOf? at h
  split at h
  · next c =>
    unfold Sign.ofChar? at h
    split at h <;> cases h <;> rfl
  · next c d =>
    unfold Sign.ofPair? at h
    split at h
    · next hd =>
      subst hd
      split at h <;> cases h <;> rfl
    · cases h
  · cases h

namespace Rule

/-- The rule of all texts that start with a character, if there is only one. -/
def ofStart? (c : Char) : Option Rule :=
  if isBlank c then some blanks
  else if isWordStart c then some word
  else if c.isDigit then some number
  else if c = '"' then some string
  else none

/-- The only rule that a text can belong to. -/
def ofText? : List Char → Option Rule
  | [] => none
  | c :: cs =>
    match ofStart? c with
    | some r => some r
    | none =>
      match c, cs with
      | '/', '/' :: _ => some lineComment
      | '/', ['*'] => some openComment
      | '/', '*' :: _ => some blockComment
      | _, _ => (signOf? (c :: cs)).map sign

theorem ofStart?_blank {c : Char} (h : isBlank c = true) : ofStart? c = some blanks :=
  if_pos h

theorem ofStart?_word {c : Char} (h : isWordStart c = true) : ofStart? c = some word := by
  unfold ofStart?
  rw [Item.isBlank_wordPart (Item.isWordPart_of_isWordStart h), if_neg Bool.false_ne_true, if_pos h]

theorem ofStart?_digit {c : Char} (h : c.isDigit = true) : ofStart? c = some number := by
  unfold ofStart?
  rw [Item.isBlank_wordPart (isWordPart_of_isDigit h), if_neg Bool.false_ne_true,
    Item.not_isWordStart_of_isDigit h, if_neg Bool.false_ne_true, if_pos h]

theorem ofText?_of_start {c : Char} {r : Rule} (h : ofStart? c = some r) (cs : List Char) :
    ofText? (c :: cs) = some r := by
  unfold ofText?
  dsimp only
  rw [h]

theorem ofText?_of_mem {r : Rule} {w : List Char} (h : w ∈ r.language) : ofText? w = some r := by
  cases r with
  | blanks =>
      obtain ⟨c, cs, rfl, hc, -⟩ := mem_run.mp h
      exact ofText?_of_start (ofStart?_blank hc) cs
  | word =>
      obtain ⟨c, cs, rfl, hc, -⟩ := mem_run.mp h
      exact ofText?_of_start (ofStart?_word hc) cs
  | number =>
      obtain ⟨whole, fraction, hwhole, -, rfl⟩ := mem_number.mp h
      obtain ⟨c, cs, hcons, hc⟩ := numeral_eq_cons hwhole fraction
      rw [hcons]
      exact ofText?_of_start (ofStart?_digit hc) cs
  | string =>
      obtain ⟨_, rfl, w, -, rfl⟩ := h
      exact ofText?_of_start rfl w
  | lineComment =>
      obtain ⟨_, rfl, w, -, rfl⟩ := h
      rfl
  | openComment =>
      obtain rfl := mem_single.mp h
      rfl
  | blockComment =>
      obtain ⟨_, rfl, w, ⟨v, -, _, rfl, rfl⟩, rfl⟩ := h
      cases v <;> rfl
  | sign s =>
      obtain rfl := mem_single.mp h
      cases s <;> rfl

/-- **No text belongs to two rules.** -/
theorem unique {r r' : Rule} {w : List Char} (h : w ∈ r.language) (h' : w ∈ r'.language) : r = r' :=
  Option.some.inj ((ofText?_of_mem h).symm.trans (ofText?_of_mem h'))

end Rule

end Lipi.Lexer
