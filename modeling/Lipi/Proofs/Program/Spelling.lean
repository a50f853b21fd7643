import Lipi.Proofs.Number.SignedZero
import Lipi.Proofs.Program.Diagnostics
import Lipi.Proofs.Program.Names
import Lipi.Proofs.Program.RoundTrip

set_option autoImplicit false

/-! # Two spellings of a program

A reader looks at the kinds of tokens and at the ends of lines, and at the text of a token only where
it names a member or method. **Texts whose tokens agree in kinds and in line breaks are both read or
both rejected** (`Program.ofTokens_spelling`): the programs are the same up to positions and to names
of members, which are the texts of the tokens at the places of names; the errors are of the same sort
at the same tokens. The places of names are told from the kinds of the tokens, so it needs no reader to
see that another spelling leaves the program as it is.
-/

namespace Lipi

/-! ## Kinds that compare as equal -/

/-- A zero without a sign. -/
theorem Number.eq_zero_of_magnitude {bits : Nat} (hbits : bits < infinityBits)
    (h : IsZero (ofSignedBits false bits)) : ofSignedBits false bits = 0.0 := by
  rcases h with h | h
  · exact h
  · have hword := toBits_ofSignedBits hbits
    rw [h] at hword
    have hsign : (-0.0 : Float).toBits.toNat = 2 ^ 63 := by decide
    rw [infinityBits_eq] at hbits
    omega

/-- Magnitudes that compare as equal are the same. -/
theorem Number.eq_of_beq_magnitudes {m n : Nat} (hm : m < infinityBits) (hn : n < infinityBits)
    (h : (ofSignedBits false m == ofSignedBits false n) = true) :
    ofSignedBits false n = ofSignedBits false m := by
  rcases same_of_beq h with heq | ⟨hzero, hzero'⟩
  · exact heq
  · rw [eq_zero_of_magnitude hm hzero, eq_zero_of_magnitude hn hzero']

/-- Kinds of tokens that compare as equal are the same: no number in a text has a sign. -/
theorem Token.Lexed.kind_eq_of_beq {t u : Token} (ht : t.Lexed) (hu : u.Lexed)
    (h : (t.kind == u.kind) = true) : u.kind = t.kind := by
  obtain ⟨kind, _, _⟩ := t
  obtain ⟨kind', _, _⟩ := u
  have hbeq : instBEqTokenKind.beq kind kind' = true := h
  cases kind' with
  | number y =>
      cases kind with
      | number x =>
          obtain ⟨m, hm, rfl⟩ := ht
          obtain ⟨n, hn, rfl⟩ := hu
          exact congrArg TokenKind.number (Number.eq_of_beq_magnitudes hm hn hbeq)
      | _ => cases hbeq
  | string y =>
      cases kind with
      | string x => exact congrArg TokenKind.string (eq_of_beq hbeq).symm
      | _ => cases hbeq
  | identifier y =>
      cases kind with
      | identifier x => exact congrArg TokenKind.identifier (eq_of_beq hbeq).symm
      | _ => cases hbeq
  | keyword word => exact ((TokenKind.beq_keyword kind word).mp h).symm
  | sign sign => exact ((TokenKind.beq_sign kind sign).mp h).symm
  | eof =>
      cases kind with
      | eof => rfl
      | _ => cases hbeq

theorem Token.map_kind_of_beq {ts us : List Token}
    (h : List.Forall₂ (fun t u => (t.kind == u.kind) = true) ts us) (hts : ∀ t ∈ ts, t.Lexed)
    (hus : ∀ u ∈ us, u.Lexed) : us.map Token.kind = ts.map Token.kind := by
  induction h with
  | nil => rfl
  | cons hkind _ ih =>
      obtain ⟨ht, hts⟩ := List.forall_mem_cons.mp hts
      obtain ⟨hu, hus⟩ := List.forall_mem_cons.mp hus
      rw [List.map_cons, List.map_cons, ht.kind_eq_of_beq hu hkind, ih hts hus]

namespace Program

variable {ts us : List Token}

/-- Both lists of tokens are read or both are rejected. What is read is the same up to positions and
to names of members, which are texts of tokens with the same index; errors correspond. -/
inductive ReadAlike (ts us : List Token) :
    Except (List CompileError) Program → Except (List CompileError) Program → Prop where
  | ok {p q : Program} : q.markers = p.markers →
    List.Forall₂ (Statement.Renamed (Token.PairedLexemes ts us)) p.body q.body →
    ReadAlike ts us (.ok p) (.ok q)
  | error {errors errors' : List CompileError} :
    List.Forall₂ (CompileError.Corresponds ts us) errors errors' →
    ReadAlike ts us (.error errors) (.error errors')

theorem readAlike_of_interchangeable (h : Token.Interchangeable ts us) :
    ReadAlike ts us (ofTokens ts) (ofTokens us) := by
  obtain ⟨hmarkers, haccounts⟩ := accounts_reading h
  have hlength := haccounts.errors.length_eq
  have hempty : (reading us).2.2.errors.isEmpty = (reading ts).2.2.errors.isEmpty := by
    rw [Array.isEmpty, Array.isEmpty, ← Array.length_toList, ← Array.length_toList, hlength]
  rw [ofTokens_eq, ofTokens_eq, Parser.conclude, Parser.conclude, hempty]
  split
  · exact .ok hmarkers haccounts.body
  · exact .error haccounts.errors

theorem interchangeable_of_tokenize {text text' : String} (hts : tokenize text = .ok ts)
    (hus : tokenize text' = .ok us)
    (hkinds : List.Forall₂ (fun t u => (t.kind == u.kind) = true) ts us)
    (hbreaks : ∀ i < ts.length, Token.breaksAt us i = Token.breaksAt ts i) :
    Token.Interchangeable ts us := by
  have hscanned := scanned_of_tokenize hts
  have hscanned' := scanned_of_tokenize hus
  exact ⟨hscanned, hscanned', Token.map_kind_of_beq hkinds hscanned.lexed hscanned'.lexed, hbreaks⟩

/-- **Layout and the spelling of keywords do not matter.** Two texts with tokens of the same kinds
and the same line breaks between them are both read or both rejected, with corresponding errors. The
names of members in the two programs are the texts of the tokens at the places of names, which are the
same on both sides. If the tokens at these places have the same text on both sides, then the programs
are the same up to positions. -/
theorem ofTokens_spelling {text text' : String} (hts : tokenize text = .ok ts)
    (hus : tokenize text' = .ok us)
    (hkinds : List.Forall₂ (fun t u => (t.kind == u.kind) = true) ts us)
    (hbreaks : ∀ i < ts.length, Token.breaksAt us i = Token.breaksAt ts i) :
    ReadAlike ts us (ofTokens ts) (ofTokens us) ∧
      (∀ p q, ofTokens ts = .ok p → ofTokens us = .ok q →
        p.memberNames.map some =
          (Token.namePlaces ts).map (fun i => (ts[i]?).map Token.lexeme) ∧
        q.memberNames.map some =
          (Token.namePlaces ts).map (fun i => (us[i]?).map Token.lexeme)) ∧
      ((∀ i ∈ Token.namePlaces ts, (us[i]?).map Token.lexeme = (ts[i]?).map Token.lexeme) →
        ∀ p, ofTokens ts = .ok p → ∃ q, ofTokens us = .ok q ∧ p.agrees q = true) := by
  have hsame := interchangeable_of_tokenize hts hus hkinds hbreaks
  have hread := readAlike_of_interchangeable hsame
  -- the places depend on the kinds only
  have hplaces : Token.namePlaces us = Token.namePlaces ts := by
    unfold Token.namePlaces
    rw [hsame.kinds]
  have hnames : ∀ p q, ofTokens ts = .ok p → ofTokens us = .ok q →
      p.memberNames.map some = (Token.namePlaces ts).map (fun i => (ts[i]?).map Token.lexeme) ∧
      q.memberNames.map some =
        (Token.namePlaces ts).map (fun i => (us[i]?).map Token.lexeme) := by
    intro p q hp hq
    rw [← hplaces]
    exact ⟨hplaces ▸ names_of_ofTokens hts hp, names_of_ofTokens hus hq⟩
  refine ⟨hread, hnames, fun hlexemes p hp => ?_⟩
  have hwell : Statement.AllWellFormed true p.body :=
    wellFormed_of_ofText ((ofText_of_tokenize hts).trans hp)
  rw [hp] at hread
  generalize hq : ofTokens us = r at hread
  cases hread with
  | @ok _ q hmarkers hbody =>
      obtain ⟨hp', hq'⟩ := hnames p q hp hq
      have hsome : p.memberNames.map some = q.memberNames.map some := by
        rw [hp', hq']
        exact (List.map_congr_left hlexemes).symm
      exact ⟨q, rfl, agrees_of_renamed hwell hmarkers hbody
        (List.map_injective_iff.mpr (Option.some_injective _) hsome)⟩

/-- What can be seen of two texts by running a reader on the first one: that it is a program, and that
the tokens of the two have the same kinds with the same line breaks, and at the places of names the
same texts. -/
def sameReading (text text' : String) : Bool :=
  match tokenize text, tokenize text' with
  | .ok ts, .ok us =>
    (ofTokens ts).isOk && ts.length == us.length &&
      (ts.zip us).all (fun tu => tu.1.kind == tu.2.kind) &&
      (List.range ts.length).all (fun i => Token.breaksAt us i == Token.breaksAt ts i) &&
      (Token.namePlaces ts).all fun i => (us[i]?).map Token.lexeme == (ts[i]?).map Token.lexeme
  | _, _ => false

/-- A conditional in Hindi, and in English with other blanks. The name of the member stays. -/
theorem ofTokens_spelling_english :
    let text := "agar (yeh.agar) \x7b\n  chaap x\n\x7d"
    let text' := "if ( this . agar ) /* then */ \x7b\n\n print x\n\x7d // done"
    ∃ ts us p q, tokenize text = .ok ts ∧ tokenize text' = .ok us ∧
      List.Forall₂ (fun t u => (t.kind == u.kind) = true) ts us ∧
      (∀ i < ts.length, Token.breaksAt us i = Token.breaksAt ts i) ∧
      ofTokens ts = .ok p ∧ ofTokens us = .ok q ∧ p.agrees q = true := by
  intro text text'
  have hseen : sameReading text text' = true := by decide +kernel
  unfold sameReading at hseen
  split at hseen
  · next ts us hts hus =>
    simp only [Bool.and_eq_true, beq_iff_eq] at hseen
    obtain ⟨⟨⟨⟨hread, hlength⟩, hall⟩, hrange⟩, hlexemes⟩ := hseen
    have hkinds : List.Forall₂ (fun t u => (t.kind == u.kind) = true) ts us :=
      List.forall₂_iff_zip.mpr ⟨hlength, fun hmem => List.all_eq_true.mp hall _ hmem⟩
    have hbreaks : ∀ i < ts.length, Token.breaksAt us i = Token.breaksAt ts i := fun i hi =>
      eq_of_beq (List.all_eq_true.mp hrange i (List.mem_range.mpr hi))
    cases hp : ofTokens ts with
    | ok p =>
        obtain ⟨q, hq, hagrees⟩ := (ofTokens_spelling hts hus hkinds hbreaks).2.2
          (fun i hi => eq_of_beq (List.all_eq_true.mp hlexemes i hi)) p hp
        exact ⟨ts, us, p, q, hts, hus, hkinds, hbreaks, hp, hq, hagrees⟩
    | error errors =>
        rw [hp] at hread
        cases hread
  · cases hseen

end Program

end Lipi
