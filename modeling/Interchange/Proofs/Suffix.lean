import Interchange.Json.Outline
import Mathlib.Tactic.SplitIfs

/-! # Text that is continued

A token stays the same unless it reaches up to the end of the text (`Token.Local`), and an array or
an object that is complete ends with a bracket; so its outline does not depend on what stands behind
it (`ofBytes_append`).
-/

namespace Interchange.Json

/-! ## Tokens -/

namespace Token

variable {α : Type} {bs more : List UInt8}

/-- A scanner that looks at no more text than it takes, unless it takes all. Every case of `next` is
one, as `local_next` puts together. -/
def Local (scan : List UInt8 → α × List UInt8) : Prop :=
  ∀ bs more, (scan bs).2 ≠ [] → scan (bs ++ more) = ((scan bs).1, (scan bs).2 ++ more)

theorem local_token (t : Token) : Local fun bs => (t, bs) := fun _ _ _ => rfl

theorem Local.ite {p : Prop} [Decidable p] {f g : List UInt8 → α × List UInt8} (hf : Local f)
    (hg : Local g) : Local fun bs => if p then f bs else g bs := by
  by_cases hp : p
  · simpa only [if_pos hp] using hf
  · simpa only [if_neg hp] using hg

theorem takeWhile_append_of_ne_nil {p : UInt8 → Bool} (h : bs.dropWhile p ≠ []) :
    (bs ++ more).takeWhile p = bs.takeWhile p := by
  have hsplit := congrArg List.length (List.takeWhile_append_dropWhile (p := p) (l := bs))
  rw [List.length_append] at hsplit
  have := List.length_pos_iff.mpr h
  rw [List.takeWhile_append, if_neg (by omega)]

theorem dropWhile_append_of_ne_nil {p : UInt8 → Bool} (h : bs.dropWhile p ≠ []) :
    (bs ++ more).dropWhile p = bs.dropWhile p ++ more := by
  rw [List.dropWhile_append, if_neg (by simpa using h)]

theorem digits_nil : digits [] = ([], []) := rfl

theorem local_digits : Local digits := by
  intro bs more h
  rw [digits, takeWhile_append_of_ne_nil h, dropWhile_append_of_ne_nil h, digits]

theorem local_word? (w : Word) (es : List UInt8) : Local (word? w es) := by
  intro bs more h
  fun_induction word? w es bs with
  | case1 bs => rw [word?]
  | case2 => exact absurd rfl h
  | case3 e es bs ih => rw [List.cons_append, word?, if_pos rfl, ih h]
  | case4 e es b bs hb => rw [List.cons_append, word?, if_neg hb]

/-! ### Strings -/

theorem hexEscape_append (h : hexEscape bs ≠ .error .endInString) :
    hexEscape (bs ++ more) = hexEscape bs := by
  unfold hexEscape at h ⊢
  split at h
  · rfl
  · exact absurd rfl h

theorem four_le_of_hexEscape (h : hexEscape bs ≠ .error .endInString) : 4 ≤ bs.length := by
  unfold hexEscape at h
  split at h
  · simp
  · exact absurd rfl h

theorem trailingHalf_append (h : trailingHalf bs ≠ .error .endInString) :
    trailingHalf (bs ++ more) = trailingHalf bs := by
  cases bs with
  | nil => exact absurd rfl h
  | cons s bs =>
    rw [List.cons_append]
    simp only [trailingHalf] at h ⊢
    split
    · rfl
    · rename_i hs
      rw [if_neg hs] at h
      cases bs with
      | nil => exact absurd rfl h
      | cons u bs =>
        rw [List.cons_append]
        simp only at h ⊢
        split
        · rfl
        · rename_i hu
          rw [if_neg hu] at h
          have hhex : hexEscape bs ≠ .error .endInString := by
            intro heq
            rw [heq] at h
            exact h rfl
          rw [hexEscape_append hhex]

theorem six_le_of_trailingHalf {n : Nat} (h : trailingHalf bs = .ok n) : 6 ≤ bs.length := by
  unfold trailingHalf at h
  split at h
  · cases h
  · split at h
    · cases h
    · split at h
      · cases h
      · rename_i u bs
        split at h
        · cases h
        · have hhex : hexEscape bs ≠ .error .endInString := by
            intro heq
            rw [heq] at h
            cases h
          have := four_le_of_hexEscape hhex
          simp only [List.length_cons]
          omega

/-- A second half that breaks off takes the whole string with it, so `Local` asks nothing of it. -/
theorem scanString_of_endInString (bytes : List UInt8) (fault : Option SyntaxError)
    (h : trailingHalf bs = .error .endInString) : (scanString bytes fault bs).2 = [] := by
  unfold trailingHalf at h
  split at h
  · rw [scanString]
    rfl
  · split at h
    · cases h
    · rename_i s bs hs
      have hs : s = 0x5c := by simpa using hs
      subst hs
      split at h
      · rw [scanString]
        rfl
      · rename_i u bs
        split at h
        · cases h
        · rename_i hu
          have hu : u = 0x75 := by simpa using hu
          subst hu
          cases hhex : hexEscape bs with
          | error e =>
            rw [scanString]
            simp [shortEscape, hhex, cutString]
          | ok n =>
            rw [hhex] at h
            simp only at h
            split at h <;> cases h

section Scan

variable (bytes : List UInt8) (fault : Option SyntaxError) {cs : List UInt8} {n m : Nat}

theorem scanString_close (cs : List UInt8) :
    scanString bytes fault (0x22 :: cs) = (.string (content bytes fault), cs) := by
  rw [scanString.eq_def]
  exact if_pos rfl

theorem scanString_short {e b : UInt8} (hb : shortEscape e = some b) (cs : List UInt8) :
    scanString bytes fault (0x5c :: e :: cs) = scanString (b :: bytes) fault cs := by
  rw [scanString.eq_def]
  simp only [hb]
  rfl

theorem scanString_byte {c : UInt8} (hq : c ≠ 0x22) (hb : c ≠ 0x5c) (hc : ¬c < 0x20) (cs : List UInt8) :
    scanString bytes fault (c :: cs) = scanString (c :: bytes) fault cs := by
  rw [scanString.eq_def]
  simp only [if_neg hq, if_neg hb, if_neg hc]

theorem scanString_scalar (hn : hexEscape cs = .ok n) (hm : CodeUnit.ofNat n = .scalar m) :
    scanString bytes fault (0x5c :: 0x75 :: cs) =
      scanString ((encode m).reverse ++ bytes) fault (cs.drop 4) := by
  rw [scanString.eq_def]
  simp only [hn, hm]
  rfl

theorem scanString_trailing (hn : hexEscape cs = .ok n) (hm : CodeUnit.ofNat n = .trailing m) :
    scanString bytes fault (0x5c :: 0x75 :: cs) =
      scanString bytes (fault <|> some .unpairedSurrogate) (cs.drop 4) := by
  rw [scanString.eq_def]
  simp only [hn, hm]
  rfl

theorem scanString_pair (hn : hexEscape cs = .ok n) (hm : CodeUnit.ofNat n = .leading m) {k : Nat}
    (hk : trailingHalf (cs.drop 4) = .ok k) : scanString bytes fault (0x5c :: 0x75 :: cs) =
      scanString ((encode (pairValue m k)).reverse ++ bytes) fault (cs.drop 10) := by
  rw [scanString.eq_def]
  simp only [hn, hm, hk]
  rfl

theorem scanString_lone (hn : hexEscape cs = .ok n) (hm : CodeUnit.ofNat n = .leading m)
    {e : SyntaxError} (he : trailingHalf (cs.drop 4) = .error e) :
    scanString bytes fault (0x5c :: 0x75 :: cs) =
      scanString bytes (fault <|> some e) (cs.drop 4) := by
  rw [scanString.eq_def]
  simp only [hn, hm, he]
  rfl

end Scan

theorem local_scanString (bytes : List UInt8) (fault : Option SyntaxError) :
    Local (scanString bytes fault) := by
  intro bs more h
  have hhex : ∀ {cs : List UInt8} {n : Nat}, hexEscape cs = .ok n →
      hexEscape (cs ++ more) = .ok n ∧ 4 ≤ cs.length := by
    intro cs n hn
    have hne : hexEscape cs ≠ .error .endInString := by simp [hn]
    exact ⟨by rw [hexEscape_append hne, hn], four_le_of_hexEscape hne⟩
  fun_induction scanString bytes fault bs with
  | case1 | case3 | case5 | case10 | case11 => exact absurd rfl h
  | case2 bytes fault cs => exact scanString_close bytes fault _
  | case4 bytes fault c cs b hb _ ih => exact (scanString_short bytes fault hb _).trans (ih h)
  | case6 bytes fault cs n hn m hm _ _ ih =>
    obtain ⟨hn', hlen⟩ := hhex hn
    rw [← ih h, ← List.drop_append_of_le_length hlen]
    exact scanString_scalar bytes fault hn' hm
  | case7 bytes fault cs n hn m hm _ _ ih =>
    obtain ⟨hn', hlen⟩ := hhex hn
    rw [← ih h, ← List.drop_append_of_le_length hlen]
    exact scanString_trailing bytes fault hn' hm
  | case8 bytes fault cs n hn m hm k hk _ _ ih =>
    obtain ⟨hn', hlen⟩ := hhex hn
    have hten : 10 ≤ cs.length := by
      have := six_le_of_trailingHalf hk
      rw [List.length_drop] at this
      omega
    rw [← ih h, ← List.drop_append_of_le_length hten]
    refine scanString_pair bytes fault hn' hm ?_
    rw [List.drop_append_of_le_length hlen, trailingHalf_append (by simp [hk]), hk]
  | case9 bytes fault cs n hn m hm e he _ _ ih =>
    obtain ⟨hn', hlen⟩ := hhex hn
    have hne : trailingHalf (cs.drop 4) ≠ .error .endInString :=
      fun hend => h (scanString_of_endInString _ _ hend)
    rw [← ih h, ← List.drop_append_of_le_length hlen]
    refine scanString_lone bytes fault hn' hm ?_
    rw [List.drop_append_of_le_length hlen, trailingHalf_append hne, he]
  | case12 bytes fault c cs hq hb hc ih => exact (scanString_byte bytes fault hq hb hc _).trans (ih h)

/-! ### Numbers -/

/-- Needs digits, behind which `next` goes on. Both parts of a number are of this form. -/
def afterDigits (next : List Nat → List UInt8 → Token × List UInt8) (bs : List UInt8) :
    Token × List UInt8 :=
  match digits bs with
  | ([], rest) => (.badNumber rest.isEmpty, rest)
  | (d :: ds, rest) => next (d :: ds) rest

theorem local_afterDigits {next : List Nat → List UInt8 → Token × List UInt8}
    (hlocal : ∀ ds, Local (next ds)) (hnil : ∀ ds, (next ds []).2 = []) : Local (afterDigits next) := by
  intro bs more h
  have hdigits : (digits bs).2 ≠ [] → digits (bs ++ more) = ((digits bs).1, (digits bs).2 ++ more) :=
    local_digits bs more
  unfold afterDigits at h ⊢
  generalize digits bs = r at h hdigits ⊢
  obtain ⟨ds, rest⟩ := r
  cases ds with
  | nil =>
    rw [hdigits h]
    cases rest with
    | nil => exact absurd rfl h
    | cons => rfl
  | cons d ds =>
    have hrest : rest ≠ [] := by
      rintro rfl
      exact h (hnil _)
    rw [hdigits hrest]
    exact hlocal (d :: ds) rest more h

/-- The sign of an exponent, which may be left out. -/
def exponentSign : List UInt8 → Bool × List UInt8
  | [] => (false, [])
  | s :: cs => if s = 0x2d then (true, cs) else if s = 0x2b then (false, cs) else (false, s :: cs)

theorem local_exponentSign : Local exponentSign := by
  intro bs more h
  cases bs with
  | nil => exact absurd rfl h
  | cons s cs =>
    simp only [List.cons_append, exponentSign]
    split_ifs <;> rfl

/-- A number whose exponent has been read. -/
def withExponentDigits (n : Numeral) (neg : Bool) (ds : List Nat) (rest : List UInt8) : Token × List UInt8 :=
  (.number { n with exponent := some (neg, ds) }, rest)

theorem exponentPart_of_mark (n : Numeral) {c : UInt8} (hc : c = 0x65 ∨ c = 0x45) (cs : List UInt8) :
    exponentPart n (c :: cs) =
      afterDigits (withExponentDigits n (exponentSign cs).1) (exponentSign cs).2 := by
  cases cs with
  | nil => simp only [exponentPart, if_pos hc, exponentSign, afterDigits, digits_nil]
  | cons s cs =>
    simp only [exponentPart, if_pos hc, exponentSign, afterDigits]
    split_ifs
    · generalize digits cs = r
      obtain ⟨ds, rest⟩ := r
      cases ds <;> rfl
    · generalize digits cs = r
      obtain ⟨ds, rest⟩ := r
      cases ds <;> rfl
    · generalize digits (s :: cs) = r
      obtain ⟨ds, rest⟩ := r
      cases ds <;> rfl

theorem exponentPart_of_ne (n : Numeral) {c : UInt8} (hc : ¬(c = 0x65 ∨ c = 0x45)) (cs : List UInt8) :
    exponentPart n (c :: cs) = (.number n, c :: cs) := by
  unfold exponentPart
  exact if_neg hc

theorem local_exponentPart (n : Numeral) : Local (exponentPart n) := by
  intro bs more h
  cases bs with
  | nil => exact absurd rfl h
  | cons c cs =>
    by_cases hc : c = 0x65 ∨ c = 0x45
    · rw [exponentPart_of_mark n hc] at h ⊢
      have hsign : (exponentSign cs).2 ≠ [] := by
        intro hnil
        rw [hnil] at h
        exact h rfl
      rw [List.cons_append, exponentPart_of_mark n hc, local_exponentSign cs more hsign]
      exact local_afterDigits (fun _ _ _ _ => rfl) (fun _ => rfl) _ more h
    · rw [List.cons_append, exponentPart_of_ne n hc, exponentPart_of_ne n hc, List.cons_append]

theorem fractionPart_of_point (n : Numeral) (cs : List UInt8) :
    fractionPart n (0x2e :: cs) = afterDigits (fun ds => exponentPart { n with fraction := some ds }) cs := by
  unfold fractionPart afterDigits
  simp only [if_pos]
  obtain ⟨ds, rest⟩ := digits cs
  cases ds <;> rfl

theorem fractionPart_of_ne (n : Numeral) {c : UInt8} (hc : c ≠ 0x2e) (cs : List UInt8) :
    fractionPart n (c :: cs) = exponentPart n (c :: cs) := by
  unfold fractionPart
  exact if_neg hc

theorem local_fractionPart (n : Numeral) : Local (fractionPart n) := by
  intro bs more h
  cases bs with
  | nil => exact absurd rfl h
  | cons c cs =>
    by_cases hc : c = 0x2e
    · subst hc
      rw [fractionPart_of_point] at h ⊢
      rw [List.cons_append, fractionPart_of_point]
      exact local_afterDigits (fun _ => local_exponentPart _) (fun _ => rfl) cs more h
    · rw [fractionPart_of_ne n hc] at h ⊢
      rw [List.cons_append, fractionPart_of_ne n hc]
      exact local_exponentPart n (c :: cs) more h

/-- What follows the whole digits of a number; a leading zero stands alone. -/
def afterWhole (neg : Bool) (ds : List Nat) (rest : List UInt8) : Token × List UInt8 :=
  if ds.head? = some 0 ∧ 1 < ds.length then (.badNumber false, rest)
  else fractionPart ⟨neg, ds, none, none⟩ rest

theorem local_afterWhole (neg : Bool) (ds : List Nat) : Local (afterWhole neg ds) := by
  intro bs more h
  unfold afterWhole at h ⊢
  split_ifs at h ⊢
  · rfl
  · exact local_fractionPart _ bs more h

theorem afterWhole_nil (neg : Bool) (ds : List Nat) : (afterWhole neg ds []).2 = [] := by
  unfold afterWhole
  split_ifs <;> rfl

theorem numeral_eq (neg : Bool) (bs : List UInt8) : numeral neg bs = afterDigits (afterWhole neg) bs := by
  unfold numeral afterDigits afterWhole
  generalize digits bs = r
  obtain ⟨ds, rest⟩ := r
  cases ds with
  | nil => rfl
  | cons d ds => cases ds <;> cases d <;> simp

theorem local_numeral (neg : Bool) : Local (numeral neg) := by
  intro bs more h
  rw [numeral_eq] at h ⊢
  rw [numeral_eq]
  exact local_afterDigits (local_afterWhole neg) (afterWhole_nil neg) bs more h

/-! ### All tokens -/

theorem local_next (c : UInt8) : Local (next c) := by
  unfold next
  refine .ite (local_token _) (.ite (local_token _) (.ite (local_token _) ?_))
  refine .ite (local_token _) (.ite (local_token _) (.ite (local_token _) ?_))
  refine .ite (local_scanString [] none) ?_
  refine .ite (local_word? _ _) (.ite (local_word? _ _) (.ite (local_word? _ _) ?_))
  refine .ite (local_numeral true) (.ite ?_ (local_token _))
  exact fun cs more h => local_numeral false (c :: cs) more h

/-! ### Closing brackets -/

def isClosing : Token → Bool
  | .endList | .endObject => true
  | _ => false

theorem isClosing_word? (w : Word) (es bs : List UInt8) : (word? w es bs).1.isClosing = false := by
  fun_induction word? w es bs with
  | case1 | case2 | case4 => rfl
  | case3 _ _ _ ih => exact ih

theorem isClosing_scanString (bytes : List UInt8) (fault : Option SyntaxError) (bs : List UInt8) :
    (scanString bytes fault bs).1.isClosing = false := by
  fun_induction scanString bytes fault bs with
  | case1 | case2 | case3 | case5 | case10 | case11 => rfl
  | case4 _ _ _ _ _ _ _ ih => exact ih
  | case6 _ _ _ _ _ _ _ _ _ ih | case7 _ _ _ _ _ _ _ _ _ ih => exact ih
  | case8 _ _ _ _ _ _ _ _ _ _ _ ih | case9 _ _ _ _ _ _ _ _ _ _ _ ih => exact ih
  | case12 _ _ _ _ _ _ _ ih => exact ih

theorem isClosing_afterDigits {next : List Nat → List UInt8 → Token × List UInt8}
    (h : ∀ ds rest, (next ds rest).1.isClosing = false) (bs : List UInt8) :
    (afterDigits next bs).1.isClosing = false := by
  unfold afterDigits
  split
  · rfl
  · exact h _ _

theorem isClosing_exponentPart (n : Numeral) (bs : List UInt8) :
    (exponentPart n bs).1.isClosing = false := by
  cases bs with
  | nil => rfl
  | cons c cs =>
    by_cases hc : c = 0x65 ∨ c = 0x45
    · rw [exponentPart_of_mark n hc]
      exact isClosing_afterDigits (fun _ _ => rfl) _
    · rw [exponentPart_of_ne n hc]
      rfl

theorem isClosing_fractionPart (n : Numeral) (bs : List UInt8) :
    (fractionPart n bs).1.isClosing = false := by
  cases bs with
  | nil => rfl
  | cons c cs =>
    by_cases hc : c = 0x2e
    · subst hc
      rw [fractionPart_of_point]
      exact isClosing_afterDigits (fun _ => isClosing_exponentPart _) cs
    · rw [fractionPart_of_ne n hc]
      exact isClosing_exponentPart n _

theorem isClosing_numeral (neg : Bool) (bs : List UInt8) : (numeral neg bs).1.isClosing = false := by
  rw [numeral_eq]
  refine isClosing_afterDigits (fun ds rest => ?_) bs
  unfold afterWhole
  split
  · rfl
  · exact isClosing_fractionPart _ _

theorem isClosing_ite {p : Prop} [Decidable p] {a b : Token × List UInt8}
    (ha : p → a.1.isClosing = false) (hb : b.1.isClosing = false) :
    (if p then a else b).1.isClosing = false := by
  by_cases hp : p
  · rw [if_pos hp]
    exact ha hp
  · rwa [if_neg hp]

theorem isClosing_next {c : UInt8} (hl : c ≠ 0x5d) (ho : c ≠ 0x7d) (cs : List UInt8) :
    (next c cs).1.isClosing = false := by
  unfold next
  refine isClosing_ite (fun _ => rfl) (isClosing_ite (fun h => absurd h hl) ?_)
  refine isClosing_ite (fun _ => rfl) (isClosing_ite (fun h => absurd h ho) ?_)
  refine isClosing_ite (fun _ => rfl) (isClosing_ite (fun _ => rfl) ?_)
  refine isClosing_ite (fun _ => isClosing_scanString [] none cs) ?_
  refine isClosing_ite (fun _ => isClosing_word? _ _ cs) ?_
  refine isClosing_ite (fun _ => isClosing_word? _ _ cs) ?_
  refine isClosing_ite (fun _ => isClosing_word? _ _ cs) ?_
  exact isClosing_ite (fun _ => isClosing_numeral true cs)
    (isClosing_ite (fun _ => isClosing_numeral false (c :: cs)) rfl)

/-- A closing bracket is a token by itself. -/
theorem next_append_of_isClosing {c : UInt8} {cs : List UInt8} (h : (next c cs).1.isClosing = true) :
    next c (cs ++ more) = ((next c cs).1, (next c cs).2 ++ more) := by
  by_cases hl : c = 0x5d
  · subst hl
    rfl
  by_cases ho : c = 0x7d
  · subst ho
    rfl
  rw [isClosing_next hl ho] at h
  cases h

end Token

theorem tokens_nil : tokens [] = [] := by rw [tokens]

/-! ## Outlines -/

namespace Outline

/-- The text breaks off in the value, or in the last of its parts. Where it does not, `isBracketed`
values end with their bracket. -/
inductive Faulty : Outline → Prop
  | broken (found : Option Token) : Faulty (.broken found)
  | items (xs : List Outline) (e : Expecting) (found : Option Token) :
      Faulty (.array xs (.stopped e found))
  | members (ms : List (Except SyntaxError String × Outline)) (e : Expecting) (found : Option Token) :
      Faulty (.object ms (.stopped e found))
  | item (before : List Outline) {x : Outline} (h : Faulty x) : Faulty (.array (before ++ [x]) .cut)
  | member (before : List (Except SyntaxError String × Outline)) (k : Except SyntaxError String)
      {x : Outline} (h : Faulty x) : Faulty (.object (before ++ [(k, x)]) .cut)

/-- An array or an object, whose end shows in the text. -/
def isBracketed : Outline → Bool
  | .array _ _ | .object _ _ => true
  | _ => false

variable {x : Outline} {t : Token} {stack : List Frame} {state : State}

theorem Faulty.cutOff (h : Faulty x) (stack : List Frame) : Faulty (cutOff x stack) := by
  induction stack generalizing x with
  | nil => exact h
  | cons f fs ih =>
    cases f with
    | items before =>
      refine ih ?_
      rw [List.reverse_cons]
      exact .item _ h
    | member before k =>
      refine ih ?_
      rw [List.reverse_cons]
      exact .member _ k h

/-- A text that ends before its value is `Faulty`. -/
theorem faulty_atEnd (stack : List Frame) (state : State) : Faulty (atEnd stack state) := by
  cases state with
  | value => exact (Faulty.broken _).cutOff stack
  | firstItem | item | itemEnd => exact (Faulty.items _ _ _).cutOff stack
  | firstKey | key | colon | memberEnd => exact (Faulty.members _ _ _).cutOff stack

theorem isBracketed_of_scalar? (h : scalar? t = some x) : x.isBracketed = false := by
  unfold scalar? at h
  split at h <;> cases h <;> rfl

/-- A value is complete when no `Frame` waits for it. -/
theorem eq_of_place {y : Outline} (h : place x stack = .done y) : x = y := by
  unfold place at h
  split at h <;> cases h
  rfl

theorem faulty_of_stop {y : Outline} (hx : Faulty x) (h : stop x stack = .done y) : Faulty y := by
  cases h
  exact hx.cutOff stack

theorem faulty_of_startValue (h : startValue t stack = .done x) (hb : x.isBracketed = true) :
    Faulty x := by
  unfold startValue at h
  split at h
  · cases h
  · cases h
  · split at h
    · rename_i hs
      have heq := eq_of_place h
      have hs' := isBracketed_of_scalar? hs
      rw [heq, hb] at hs'
      cases hs'
    · exact faulty_of_stop (.broken _) h

/-- An array or an object is completed by its closing bracket, the only token that `step` ends it
with. -/
theorem isClosing_of_step (h : step t stack state = .done x) (hb : x.isBracketed = true)
    (hf : ¬Faulty x) : t.isClosing = true := by
  cases state with
  | value => exact absurd (faulty_of_startValue h hb) hf
  | firstItem | item =>
    simp only [step] at h
    split at h
    · rfl
    · exact absurd (faulty_of_startValue h hb) hf
  | itemEnd =>
    simp only [step] at h
    split at h
    · cases h
    · rfl
    · exact absurd (faulty_of_stop (.items _ _ _) h) hf
  | firstKey =>
    simp only [step] at h
    split at h
    · rfl
    · cases h
    · exact absurd (faulty_of_stop (.members _ _ _) h) hf
  | key | colon =>
    simp only [step] at h
    split at h
    · cases h
    · exact absurd (faulty_of_stop (.members _ _ _) h) hf
  | memberEnd =>
    simp only [step] at h
    split at h
    · cases h
    · rfl
    · exact absurd (faulty_of_stop (.members _ _ _) h) hf

/-- A complete array or object has the same outline whatever stands behind it. -/
theorem follow_append (more : List UInt8) (hb : x.isBracketed = true) (hf : ¬Faulty x) {bs : List UInt8}
    (h : follow state stack (tokens bs) = x) : follow state stack (tokens (bs ++ more)) = x := by
  fun_induction tokens bs generalizing state stack with
  | case1 =>
    cases h
    exact absurd (faulty_atEnd stack state) hf
  | case2 c cs hc ih =>
    rw [List.cons_append, tokens, if_pos hc]
    exact ih h
  | case3 c cs hc ih =>
    rw [follow] at h
    rw [List.cons_append, tokens, if_neg hc, follow]
    cases hs : step (Token.next c cs).1 stack state with
    | done y =>
      rw [hs] at h
      cases h
      rw [Token.next_append_of_isClosing (isClosing_of_step hs hb hf), hs]
    | more state' stack' =>
      rw [hs] at h
      -- the text goes on behind the token, since it does not end there
      have hrest : (Token.next c cs).2 ≠ [] := by
        intro hnil
        rw [hnil, tokens_nil] at h
        exact hf (h ▸ faulty_atEnd stack' state')
      rw [Token.local_next c cs more hrest, hs]
      exact ih h

theorem ofBytes_append {bs : List UInt8} (hb : (ofBytes bs).isBracketed = true)
    (hf : ¬Faulty (ofBytes bs)) (more : List UInt8) : ofBytes (bs ++ more) = ofBytes bs :=
  follow_append more hb hf rfl

end Outline

end Interchange.Json
