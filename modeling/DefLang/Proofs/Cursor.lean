import DefLang.Proofs.Scanning
import Mathlib.Data.List.Basic

namespace DefLang
open Text

namespace Scanner

variable {before rest : List Char} {s : Scanner}

/-- The cursor after `n` calls of `next`. -/
def after (s : Scanner) : Nat → Scanner
  | 0 => s
  | n + 1 => s.next.2.after n

/-- The cursor in the source `before ++ rest`, in front of `rest`. -/
def between (before rest : List Char) : Scanner :=
  { size := byteSize (before ++ rest), pos := byteSize before, rest := pieces rest }

/-- What one call in front of `rest` can answer, and where it leaves the cursor. -/
inductive Reply (before rest : List Char) : Except ScanError (Option Token) × Scanner → Prop where
  | ended : Reply before rest (.ok none, between (before ++ rest) [])
  | token {w v rest' : List Char} {k : Token.Kind} (hrest : rest = w ++ (v ++ rest'))
      (hv : k.Fits v) :
      Reply before rest (.ok (some (.placed k v (byteSize (before ++ w)))),
        between (before ++ w ++ v) rest')
  | unknown {w rest' : List Char} {c : Char} (hrest : rest = w ++ c :: rest') :
      Reply before rest
        (.error (.unknownCharacter c
          { offset := UInt32.ofNat (byteSize (before ++ w)), length := UInt32.ofNat c.utf8Size }),
        between (before ++ w) (c :: rest'))

theorem Reply.blank {c : Char} {r : Except ScanError (Option Token) × Scanner}
    (h : Reply (before ++ [c]) rest r) : Reply before (c :: rest) r := by
  cases h with
  | ended =>
    rw [List.append_assoc]
    exact .ended
  | @token w v rest' k hrest hv =>
    rw [List.append_assoc before [c] w]
    exact .token (congrArg (c :: ·) hrest) hv
  | @unknown w rest' d hrest =>
    rw [List.append_assoc before [c] w]
    exact .unknown (congrArg (c :: ·) hrest)

theorem next_eq (hsize : s.size ≤ maxSourceSize) :
    s.next = ((nextFrom s.pos s.rest).1,
      { s with pos := (nextFrom s.pos s.rest).2.1, rest := (nextFrom s.pos s.rest).2.2 }) := by
  rw [next, if_neg (Nat.not_lt.mpr hsize)]

theorem next_between_blank {c : Char} (hc : isBlank c = true)
    (hsize : byteSize (before ++ c :: rest) ≤ maxSourceSize) :
    (between before (c :: rest)).next = (between (before ++ [c]) rest).next := by
  have hsplit : before ++ c :: rest = before ++ [c] ++ rest := by simp
  have hpos : byteSize (before ++ [c]) = byteSize before + (Piece.blank c).size := by
    simp [Piece.size, Piece.chars]
  have hsize' : byteSize (before ++ [c] ++ rest) ≤ maxSourceSize := hsplit ▸ hsize
  rw [next_eq hsize, next_eq hsize']
  simp only [between, pieces_blank_cons hc, nextFrom, Piece.read, hpos, hsplit]

theorem next_between_blanks {w : List Char} (hw : ∀ c ∈ w, isBlank c = true)
    (hsize : byteSize (before ++ (w ++ rest)) ≤ maxSourceSize) :
    (between before (w ++ rest)).next = (between (before ++ w) rest).next := by
  induction w generalizing before with
  | nil => rw [List.nil_append, List.append_nil]
  | cons c w ih =>
    obtain ⟨hc, hw⟩ := List.forall_mem_cons.mp hw
    rw [List.cons_append] at hsize ⊢
    rw [next_between_blank hc hsize, ih hw (by simpa using hsize)]
    simp

/-- A piece that is not blank is a token, or stops the cursor. -/
theorem next_between_piece {p : Piece} (hp : ∀ c, p ≠ .blank c)
    (hpieces : pieces (p.chars ++ rest) = p :: pieces rest)
    (hsize : byteSize (before ++ (p.chars ++ rest)) ≤ maxSourceSize) :
    (between before (p.chars ++ rest)).next =
      match p.kind? with
      | some k =>
        (.ok (some (.placed k p.chars (byteSize before))), between (before ++ p.chars) rest)
      | none =>
        (.error (.unknownCharacter p.first
          { offset := UInt32.ofNat (byteSize before), length := UInt32.ofNat p.first.utf8Size }),
          between before (p.chars ++ rest)) := by
  rw [next_eq hsize]
  simp only [between, hpieces, nextFrom]
  cases hk : p.kind? with
  | some k => simp [Token.read_of_kind? hk, Piece.size]
  | none =>
    cases hread : p.read (byteSize before) with
    | ok found =>
      obtain ⟨k, hk', _⟩ := Token.exists_kind?_of_read hp hread
      cases hk.symm.trans hk'
    | error e => rw [Token.read_eq_error hread]

theorem reply_next_piece {p : Piece} (hp : ∀ c, p ≠ .blank c)
    (hpieces : pieces (p.chars ++ rest) = p :: pieces rest)
    (hfits : ∀ k, p.kind? = some k → k.Fits p.chars)
    (hsize : byteSize (before ++ (p.chars ++ rest)) ≤ maxSourceSize) :
    Reply before (p.chars ++ rest) (between before (p.chars ++ rest)).next := by
  rw [next_between_piece hp hpieces hsize]
  cases hk : p.kind? with
  | some k =>
    have h : Reply before (p.chars ++ rest) _ := .token (List.nil_append _).symm (hfits k hk)
    simpa only [List.append_nil] using h
  | none =>
    obtain ⟨cs, hchars⟩ := p.exists_chars_eq
    have hrest : p.chars ++ rest = [] ++ p.first :: (cs ++ rest) := by simp [hchars]
    have h : Reply before _ _ := .unknown hrest
    rw [← List.cons_append, ← hchars, List.append_nil] at h
    exact h

theorem reply_next (hsize : byteSize (before ++ rest) ≤ maxSourceSize) :
    Reply before rest (between before rest).next := by
  induction rest using pieces_induction generalizing before with
  | nil =>
    have h : Reply before [] _ := .ended
    rw [List.append_nil] at h
    rw [next_eq hsize]
    exact h
  | blank c rest hc ih =>
    rw [next_between_blank hc hsize]
    exact .blank (ih (by simpa using hsize))
  | word first cs rest hw hb ih =>
    refine reply_next_piece (p := .word first cs) (by simp) (pieces_word_append hw hb) ?_ hsize
    exact fun k hk => ((Token.Kind.ofWord?_eq_some_iff (List.cons_ne_nil _ _) k).mp hk).2
  | mark c rest hw hb ih =>
    refine reply_next_piece (p := .mark c) (by simp) (pieces_mark_cons hw hb rest) ?_ hsize
    exact fun k hk => ((Token.Kind.ofMark?_eq_some_iff c k).mp hk).2

theorem nextFrom_again {pos : Nat} {ps : List Piece}
    (h : ∀ t, (nextFrom pos ps).1 ≠ .ok (some t)) :
    nextFrom (nextFrom pos ps).2.1 (nextFrom pos ps).2.2 = nextFrom pos ps := by
  induction ps generalizing pos with
  | nil => rfl
  | cons p ps ih =>
    rw [nextFrom] at h ⊢
    cases hread : p.read pos with
    | error e => simp [nextFrom, hread]
    | ok found =>
      rw [hread] at h
      cases found with
      | none => exact ih h
      | some t => exact (h t rfl).elim

theorem nextFrom_length_lt {pos : Nat} {ps : List Piece} {t : Token}
    (h : (nextFrom pos ps).1 = .ok (some t)) :
    (nextFrom pos ps).2.2.length < ps.length := by
  induction ps generalizing pos with
  | nil => cases h
  | cons p ps ih =>
    rw [nextFrom] at h ⊢
    cases hread : p.read pos with
    | error e =>
      rw [hread] at h
      cases h
    | ok found =>
      rw [hread] at h
      cases found with
      | none => exact Nat.lt_succ_of_lt (ih h)
      | some t => exact Nat.lt_succ_self _

/-- Each token takes at least one piece. -/
theorem next_length_lt {s' : Scanner} {t : Token} (h : s.next = (.ok (some t), s')) :
    s'.rest.length < s.rest.length := by
  unfold next at h
  split at h
  · cases h
  · obtain ⟨hanswer, rfl⟩ := Prod.mk.inj h
    exact nextFrom_length_lt hanswer

/-- A call that found no token is answered the same way ever after. -/
theorem next_again (hsize : s.size ≤ maxSourceSize)
    (h : ∀ t, s.next.1 ≠ .ok (some t)) : s.next.2.next = s.next := by
  have hsize' : s.next.2.size ≤ maxSourceSize := by
    rw [next_eq hsize]
    exact hsize
  rw [next_eq hsize']
  simp only [next_eq hsize] at h ⊢
  rw [nextFrom_again h]

end Scanner

/-- How a scan ends: nothing is left, or some character starts no token. -/
inductive Ending where
  | complete
  | unknown (found : Char) (span : Span)
  deriving DecidableEq, Repr

namespace Ending

/-- The answer to a call. -/
def answer : Ending → Except ScanError (Option Token)
  | complete => .ok none
  | unknown found span => .error (.unknownCharacter found span)

/-- The place of the cursor in a source of `size` bytes. -/
def pos (size : Nat) : Ending → Nat
  | complete => size
  | unknown _ span => span.offset.toNat

/-- The answer to a request for all tokens, with `ts` left. -/
def remaining (ts : List Token) : Ending → Except ScanError (List Token)
  | complete => .ok ts
  | unknown found span => .error (.unknownCharacter found span)

end Ending

namespace Scanner

variable {source before rest : List Char} {s s' : Scanner} {ts : List Token} {ending : Ending}

/-- The calls answer with `ts` one by one, and with `ending` ever after. Each token is cut out of
the source in front of the place where its call leaves the cursor. -/
structure Walks (source : List Char) (s : Scanner) (ts : List Token) (ending : Ending) : Prop where
  token : ∀ i t, ts[i]? = some t →
    (s.after i).next.1 = .ok (some t) ∧ t.span.text? source = some t.text ∧
      (s.after (i + 1)).pos = t.span.offset.toNat + t.span.length.toNat ∧
      (s.after i).pos < (s.after (i + 1)).pos
  final : ∀ i, ts.length ≤ i →
    (s.after i).next.1 = ending.answer ∧ (s.after (i + 1)).pos = ending.pos (byteSize source)
  remaining : ∀ j, (s.after j).remaining = ending.remaining (ts.drop j)

/-- The answers determine the tokens. -/
theorem Walks.getElem?_eq_some_iff (h : s.Walks source ts ending) (i : Nat) (t : Token) :
    ts[i]? = some t ↔ (s.after i).next.1 = .ok (some t) := by
  refine ⟨fun ht => (h.token i t ht).1, fun hanswer => ?_⟩
  cases hu : ts[i]? with
  | some u =>
    have hsame := (h.token i u hu).1.symm.trans hanswer
    exact Except.ok.inj hsame
  | none =>
    rw [(h.final i (List.getElem?_eq_none_iff.mp hu)).1] at hanswer
    cases ending <;> cases hanswer

theorem remaining_of_next (h : s.next = (ending.answer, s')) :
    s.remaining = ending.remaining [] := by
  rw [remaining_eq_next, h]
  cases ending <;> rfl

theorem Walks.stop (hnext : s.next = (ending.answer, s')) (hagain : s'.next = (ending.answer, s'))
    (hpos : s'.pos = ending.pos (byteSize source)) : s.Walks source [] ending := by
  have hafter (n : Nat) : s'.after n = s' := by
    induction n with
    | zero => rfl
    | succ n ih => rw [after, hagain, ih]
  have hcall (i : Nat) : (s.after i).next = (ending.answer, s') := by
    cases i with
    | zero => exact hnext
    | succ i => rw [after, hnext, hafter, hagain]
  have hplace (i : Nat) : s.after (i + 1) = s' := by rw [after, hnext, hafter]
  refine ⟨by simp, fun i _ => ⟨by rw [hcall], by rw [hplace, hpos]⟩, fun j => ?_⟩
  rw [remaining_of_next (hcall j), List.drop_nil]

theorem Walks.cons {t : Token} (hnext : s.next = (.ok (some t), s'))
    (htext : t.span.text? source = some t.text)
    (hpos : s'.pos = t.span.offset.toNat + t.span.length.toNat) (hlt : s.pos < s'.pos)
    (h : s'.Walks source ts ending) : s.Walks source (t :: ts) ending := by
  have hafter (i : Nat) : s.after (i + 1) = s'.after i := by rw [after, hnext]
  refine ⟨fun i u hu => ?_, fun i hi => ?_, fun j => ?_⟩
  · cases i with
    | zero =>
      obtain rfl := Option.some.inj hu
      rw [hafter, after, hnext, after]
      exact ⟨rfl, htext, hpos, hlt⟩
    | succ i =>
      rw [hafter, hafter]
      exact h.token i u hu
  · cases i with
    | zero => cases hi
    | succ i =>
      rw [hafter, hafter]
      exact h.final i (Nat.le_of_succ_le_succ hi)
  · cases j with
    | zero =>
      have hrest := h.remaining 0
      rw [after] at hrest
      rw [after, remaining_eq_next, hnext]
      simp only [hrest]
      cases ending <;> rfl
    | succ j =>
      rw [hafter]
      exact h.remaining j

theorem Walks.cons_placed {w v rest' : List Char} {k : Token.Kind}
    (hsplit : source = before ++ w ++ v ++ rest') (hv : k.Fits v)
    (hsize : byteSize source ≤ maxSourceSize)
    (hnext : (between before rest).next =
      (.ok (some (.placed k v (byteSize (before ++ w)))), between (before ++ w ++ v) rest'))
    (h : (between (before ++ w ++ v) rest').Walks source ts ending) :
    (between before rest).Walks source (.placed k v (byteSize (before ++ w)) :: ts) ending := by
  have hfit : byteSize (before ++ w) + byteSize v ≤ maxSourceSize := by
    rw [hsplit, byteSize_append, byteSize_append] at hsize
    exact Nat.le_of_add_right_le hsize
  obtain ⟨hoff, hlength⟩ := Token.toNat_span_placed k hfit
  refine h.cons hnext ?_ ?_ ?_
  · rw [Span.text?_eq_some_iff, Token.text_placed]
    exact ⟨before ++ w, rest', hsplit, hoff.symm, hlength.symm⟩
  · rw [hoff, hlength, ← byteSize_append]
    rfl
  · have hpos := (List.length_pos_iff.mpr hv.ne_nil).trans_le (length_le_byteSize v)
    simp only [between, byteSize_append]
    omega

theorem exists_walks (hsource : source = before ++ rest)
    (hsize : byteSize source ≤ maxSourceSize) :
    ∃ ts ending, (between before rest).Walks source ts ending := by
  -- a token takes at least one character off `rest`
  induction hn : rest.length using Nat.strongRecOn generalizing before rest with
  | _ n ih =>
    have hsize' : byteSize (before ++ rest) ≤ maxSourceSize := hsource ▸ hsize
    have hreply := reply_next hsize'
    have hagain := next_again (s := between before rest) hsize'
    generalize hnext : (between before rest).next = r at hreply hagain
    cases hreply with
    | ended =>
      have hpos : byteSize (before ++ rest) = Ending.complete.pos (byteSize source) := by
        rw [hsource]
        rfl
      exact ⟨[], .complete, .stop hnext (hagain nofun) hpos⟩
    | @unknown w rest' c hrest =>
      have hle : byteSize (before ++ w) ≤ maxSourceSize := by
        rw [hrest, ← List.append_assoc, byteSize_append] at hsize'
        exact Nat.le_of_add_right_le hsize'
      exact ⟨[], .unknown c _, .stop hnext (hagain nofun) (Token.toNat_ofNat_of_le hle).symm⟩
    | @token w v rest' k hrest hv =>
      have hsplit : source = before ++ w ++ v ++ rest' := by simp [hsource, hrest]
      have hlen : rest'.length < n := by
        have hpos := List.length_pos_iff.mpr hv.ne_nil
        simp only [hrest, List.length_append] at hn
        omega
      obtain ⟨ts, ending, hwalks⟩ := ih rest'.length hlen hsplit rfl
      exact ⟨_, ending, hwalks.cons_placed hsplit hv hsize hnext⟩

theorem exists_between_next (hsize : byteSize (before ++ rest) ≤ maxSourceSize) :
    ∃ before' rest', before ++ rest = before' ++ rest' ∧
      (between before rest).next.2 = between before' rest' := by
  have hreply := reply_next hsize
  generalize (between before rest).next = r at hreply
  cases hreply with
  | ended => exact ⟨_, _, by simp, rfl⟩
  | token hrest hv => exact ⟨_, _, by simp [hrest], rfl⟩
  | unknown hrest => exact ⟨_, _, by simp [hrest], rfl⟩

theorem exists_between_after (hsource : source = before ++ rest)
    (hsize : byteSize source ≤ maxSourceSize) (n : Nat) :
    ∃ before' rest', source = before' ++ rest' ∧
      (between before rest).after n = between before' rest' := by
  induction n generalizing before rest with
  | zero => exact ⟨before, rest, hsource, rfl⟩
  | succ n ih =>
    obtain ⟨before', rest', hsplit, hnext⟩ := exists_between_next (hsource ▸ hsize)
    rw [after, hnext]
    exact ih (hsource.trans hsplit)

/-- A scanner gives out one fixed list of tokens and then one fixed answer, however often it is
called, and its cursor never leaves the boundaries between characters. -/
theorem next_walks_through_one_result (source : String)
    (hsize : source.utf8ByteSize ≤ 4294967295) :
    (∃ ts ending, (ofText source.toList).Walks source.toList ts ending) ∧
      ∀ j, ∃ before rest,
        cut? ((ofText source.toList).after j).pos source.toList = some (before, rest) ∧
          ((ofText source.toList).after j).rest = pieces rest := by
  have hsize := (byteSize_toList source).trans_le hsize
  have hstart : source.toList = [] ++ source.toList := rfl
  refine ⟨exists_walks hstart hsize, fun j => ?_⟩
  obtain ⟨before, rest, hsplit, hafter⟩ := exists_between_after hstart hsize j
  refine ⟨before, rest, (cut?_eq_some_iff ..).mpr ⟨hsplit, ?_⟩, ?_⟩
  · exact (congrArg Scanner.pos hafter).symm
  · exact congrArg Scanner.rest hafter

theorem next_walks_up_to_bad_word :
    "f\u3000(1_ 2".utf8ByteSize ≤ 4294967295 ∧
      (ofText "f\u3000(1_ 2".toList).Walks "f\u3000(1_ 2".toList
        [⟨.identifier, "f", ⟨0, 1⟩⟩, ⟨.openParen, "(", ⟨4, 1⟩⟩] (.unknown '1' ⟨5, 1⟩) ∧
      ∀ j, ∃ before rest,
        cut? ((ofText "f\u3000(1_ 2".toList).after j).pos "f\u3000(1_ 2".toList =
            some (before, rest) ∧
          ((ofText "f\u3000(1_ 2".toList).after j).rest = pieces rest := by
  have hsize : "f\u3000(1_ 2".utf8ByteSize ≤ 4294967295 := by decide
  have hlast : ((ofText "f\u3000(1_ 2".toList).after 2).next.1 =
      .error (.unknownCharacter '1' ⟨5, 1⟩) := by decide +kernel
  obtain ⟨⟨ts, ending, hwalks⟩, hcut⟩ := next_walks_through_one_result _ hsize
  have hfirst := (hwalks.getElem?_eq_some_iff 0 ⟨.identifier, "f", ⟨0, 1⟩⟩).mpr (by decide +kernel)
  have hsecond := (hwalks.getElem?_eq_some_iff 1 ⟨.openParen, "(", ⟨4, 1⟩⟩).mpr (by decide +kernel)
  have hthird : ts[2]? = none := by
    apply Option.eq_none_iff_forall_ne_some.mpr
    intro t ht
    cases hlast.symm.trans ((hwalks.getElem?_eq_some_iff 2 t).mp ht)
  have hlen : ts.length = 2 :=
    Nat.le_antisymm (List.getElem?_eq_none_iff.mp hthird) (List.getElem?_eq_some_iff.mp hsecond).1
  obtain ⟨t, u, rfl⟩ := List.length_eq_two.mp hlen
  obtain rfl := Option.some.inj hfirst
  obtain rfl := Option.some.inj hsecond
  have hending := hlast.symm.trans (hwalks.final 2 le_rfl).1
  cases ending with
  | complete => cases hending
  | unknown found span =>
    obtain ⟨rfl, rfl⟩ := ScanError.unknownCharacter.inj (Except.error.inj hending)
    exact ⟨hsize, hwalks, hcut⟩

end Scanner

end DefLang
