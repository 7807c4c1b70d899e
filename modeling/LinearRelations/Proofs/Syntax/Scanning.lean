import LinearRelations.Proofs.Syntax.Printing

/-!
# Scanning takes the longest symbols and loses nothing

Scanning cuts a text, without its blanks, into symbols and pieces between them that are kept for operands.
A symbol stands only where it is the longest one that fits, and no symbol fits anywhere inside of a kept
piece. So at the start of any rest of the text either the longest symbol must be cut off or, where none
fits, all characters up to the next place where one does: there is only one such way to cut a text.

* `Token.IsLongest`: the longest of the symbols that fit at the front of a text, the first one on ties;
* `Token.isLongest_of_leading?`: sorting the symbols by length and taking the first that fits finds it;
* `Token.Piece`, `Token.IsScan`: a text cut into symbols and kept characters by these rules;
* `Token.IsCut.unique`: there is only one way to cut a text;
* `Token.scan_eq_iff`: scanning cuts a text that way.
-/

namespace LinearRelations.Token

/-! ### The longest symbol -/

section Longest

variable {symbols : List Token} {rest : List Char} {token : Token}

/-- A symbol that is not empty stands at the front of a text. -/
def Fits (symbol : Token) (rest : List Char) : Prop :=
  symbol.text.toList ≠ [] ∧ symbol.text.toList <+: rest

/-- No symbol that fits is longer, and none of those given before is as long. -/
def IsLongest (symbols : List Token) (rest : List Char) (token : Token) : Prop :=
  token.Fits rest ∧ ∃ before after, symbols = before ++ token :: after ∧
    (∀ s ∈ before, s.Fits rest → s.text.length < token.text.length) ∧
    ∀ s ∈ after, s.Fits rest → s.text.length ≤ token.text.length

theorem IsLongest.mem (h : IsLongest symbols rest token) : token ∈ symbols := by
  obtain ⟨-, before, after, rfl, -⟩ := h
  exact List.mem_append_right _ List.mem_cons_self

theorem IsLongest.unique {other : Token} (h : IsLongest symbols rest token) (h' : IsLongest symbols rest other) :
    token = other := by
  obtain ⟨hfits, before, after, rfl, hbefore, hafter⟩ := h
  obtain ⟨hfits', before', after', heq, hbefore', hafter'⟩ := h'
  -- one of the two comes first in the list, and must then be the longer one
  rcases List.append_eq_append_iff.1 heq with ⟨between, rfl, hcut⟩ | ⟨between, rfl, hcut⟩
  · rcases between with _ | ⟨s, between⟩
    · exact (List.cons.inj hcut).1
    · obtain ⟨rfl, rfl⟩ := List.cons.inj hcut
      have hlt := hbefore' token (by simp) hfits
      have hle := hafter other (by simp) hfits'
      omega
  · rcases between with _ | ⟨s, between⟩
    · exact (List.cons.inj hcut).1.symm
    · obtain ⟨rfl, rfl⟩ := List.cons.inj hcut
      have hlt := hbefore other (by simp) hfits'
      have hle := hafter' token (by simp) hfits
      omega

theorem fits_iff {symbol : Token} :
    symbol.Fits rest ↔ (!symbol.text.toList.isEmpty && symbol.text.toList.isPrefixOf rest) = true := by
  simp [Fits]

theorem leading?_eq_none_iff : leading? symbols rest = none ↔ ∀ s ∈ symbols, ¬ s.Fits rest := by
  simp only [leading?, List.find?_eq_none, fits_iff]

theorem longestFirst_perm (symbols : List Token) : (longestFirst symbols).Perm symbols :=
  List.mergeSort_perm _ _

theorem falling_trans (a b c : Token) (hab : decide (b.text.length ≤ a.text.length) = true)
    (hbc : decide (c.text.length ≤ b.text.length) = true) : decide (c.text.length ≤ a.text.length) = true := by
  simp only [decide_eq_true_eq] at hab hbc ⊢
  omega

theorem falling_total (a b : Token) :
    (decide (b.text.length ≤ a.text.length) || decide (a.text.length ≤ b.text.length)) = true := by
  simp only [Bool.or_eq_true, decide_eq_true_eq]
  omega

theorem pairwise_longestFirst (symbols : List Token) :
    (longestFirst symbols).Pairwise fun a b => b.text.length ≤ a.text.length := by
  simpa [longestFirst] using List.pairwise_mergeSort falling_trans falling_total symbols

/-- Symbols of one length keep their order. -/
theorem filter_longestFirst {q : Token → Bool} {n : ℕ} (hq : ∀ s, q s = true → s.text.length = n) :
    (longestFirst symbols).filter q = symbols.filter q := by
  have hlength : ∀ s ∈ symbols.filter q, s.text.length = n := fun s hs => hq s (List.mem_filter.1 hs).2
  have hsub : (symbols.filter q).Sublist (longestFirst symbols) := by
    apply List.sublist_mergeSort falling_trans falling_total
    · apply List.pairwise_of_forall_mem_list
      intro a ha b hb
      rw [hlength a ha, hlength b hb]
      exact decide_eq_true le_rfl
    · exact List.filter_sublist
  have hfilter := hsub.filter q
  rw [List.filter_eq_self.2 fun s hs => (List.mem_filter.1 hs).2] at hfilter
  exact (hfilter.eq_of_length ((longestFirst_perm symbols).filter q).length_eq.symm).symm

/-- **The first of the symbols by falling length that fits** is the longest one that fits. -/
theorem isLongest_of_leading? (h : leading? (longestFirst symbols) rest = some token) :
    IsLongest symbols rest token := by
  obtain ⟨hfits, shorter, longer, hsorted, hskipped⟩ := List.find?_eq_some_iff_append.1 h
  have hlongest : ∀ s ∈ symbols, s.Fits rest → s.text.length ≤ token.text.length := by
    intro s hs hfit
    have hpairwise := pairwise_longestFirst symbols
    have hmem := (longestFirst_perm symbols).mem_iff.2 hs
    rw [hsorted] at hpairwise hmem
    rcases List.mem_append.1 hmem with hmem | hmem
    · have hskip := hskipped s hmem
      rw [fits_iff.1 hfit] at hskip
      cases hskip
    · rcases List.mem_cons.1 hmem with rfl | hmem
      · exact le_rfl
      · exact (List.pairwise_cons.1 (List.pairwise_append.1 hpairwise).2.1).1 s hmem
  -- among the symbols of that length the first one that fits was taken
  let q : Token → Bool := fun s =>
    (!s.text.toList.isEmpty && s.text.toList.isPrefixOf rest) && s.text.length == token.text.length
  have hq : ∀ s, q s = true ↔ s.Fits rest ∧ s.text.length = token.text.length := by
    intro s
    rw [Bool.and_eq_true, beq_iff_eq, fits_iff]
  have htoken : q token = true := (hq token).2 ⟨fits_iff.2 hfits, rfl⟩
  have hfilter : symbols.filter q = token :: longer.filter q := by
    have hnone : shorter.filter q = [] := by
      rw [List.filter_eq_nil_iff]
      intro s hs hqs
      have hskip := hskipped s hs
      rw [fits_iff.1 ((hq s).1 hqs).1] at hskip
      cases hskip
    rw [← filter_longestFirst fun s hs => ((hq s).1 hs).2, hsorted, List.filter_append, hnone,
      List.filter_cons_of_pos htoken, List.nil_append]
  obtain ⟨before, after, rfl, hbefore, -, -⟩ := List.filter_eq_cons_iff.1 hfilter
  refine ⟨fits_iff.2 hfits, before, after, rfl, ?_, ?_⟩
  · intro s hs hfit
    have hle := hlongest s (List.mem_append_left _ hs) hfit
    have hne : s.text.length ≠ token.text.length := fun heq => hbefore s hs ((hq s).2 ⟨hfit, heq⟩)
    omega
  · intro s hs hfit
    exact hlongest s (List.mem_append_right _ (List.mem_cons_of_mem _ hs)) hfit

end Longest

/-! ### Cut texts -/

/-- A piece of a text: a symbol, or characters that are kept for an operand. -/
inductive Piece where
  | symbol (token : Token)
  | kept (chars : List Char)
  deriving DecidableEq, Repr

namespace Piece

def token : Piece → Token
  | symbol token => token
  | kept chars => operand (String.ofList chars)

/-- The characters that a piece covers. -/
def chars (piece : Piece) : List Char := piece.token.text.toList

@[simp] theorem chars_symbol (token : Token) : (symbol token).chars = token.text.toList := rfl

@[simp] theorem chars_kept (cs : List Char) : (kept cs).chars = cs := String.toList_ofList

end Piece

/-- The text that pieces cover. -/
def charsOf (pieces : List Piece) : List Char := pieces.flatMap Piece.chars

@[simp] theorem charsOf_nil : charsOf [] = [] := rfl

@[simp] theorem charsOf_cons (p : Piece) (ps : List Piece) : charsOf (p :: ps) = p.chars ++ charsOf ps :=
  List.flatMap_cons

/-- No symbol fits from any place inside of kept characters, in front of the given rest. -/
def Unfit (symbols : List Token) (cs rest : List Char) : Prop :=
  ∀ u v, cs = u ++ v → v ≠ [] → ∀ s ∈ symbols, ¬ s.Fits (v ++ rest)

/-- The rules for cutting a text: a symbol is the longest one that fits at its place, none fits from
any place inside of kept characters, and two kept pieces never meet. -/
structure IsCut (symbols : List Token) (pieces : List Piece) : Prop where
  longest : ∀ before token after, pieces = before ++ .symbol token :: after →
    IsLongest symbols (token.text.toList ++ charsOf after) token
  unfit : ∀ before cs after, pieces = before ++ .kept cs :: after → Unfit symbols cs (charsOf after)
  apart : ∀ before u v after, pieces ≠ before ++ .kept u :: .kept v :: after

/-- The pieces cover a text without its blanks, and none is empty; but a blank text is one empty piece. -/
structure IsScan (symbols : List Token) (text : List Char) (pieces : List Piece) : Prop
    extends IsCut symbols pieces where
  lossless : charsOf pieces = Text.unspaced text
  blank : Text.unspaced text = [] → pieces = [.kept []]
  kept_ne_nil : Text.unspaced text ≠ [] → .kept [] ∉ pieces

namespace IsCut

variable {symbols : List Token} {token : Token} {p q : Piece} {ps qs : List Piece} {cs ds : List Char}

theorem nil : IsCut symbols [] where
  longest before token after h := by simp at h
  unfit before cs after h := by simp at h
  apart before u v after h := by simp at h

theorem tail (h : IsCut symbols (p :: ps)) : IsCut symbols ps where
  longest before token after heq := h.longest (p :: before) token after (congrArg (p :: ·) heq)
  unfit before cs after heq := h.unfit (p :: before) cs after (congrArg (p :: ·) heq)
  apart before u v after heq := h.apart (p :: before) u v after (congrArg (p :: ·) heq)

theorem cons_symbol (h : IsCut symbols ps) (htoken : IsLongest symbols (token.text.toList ++ charsOf ps) token) :
    IsCut symbols (.symbol token :: ps) where
  longest before other after heq := by
    rcases before with _ | ⟨p, before⟩
    · obtain ⟨hpiece, rfl⟩ := List.cons.inj heq
      obtain rfl := Piece.symbol.inj hpiece
      exact htoken
    · exact h.longest before other after (List.cons.inj heq).2
  unfit before cs after heq := by
    rcases before with _ | ⟨p, before⟩
    · cases (List.cons.inj heq).1
    · exact h.unfit before cs after (List.cons.inj heq).2
  apart before u v after heq := by
    rcases before with _ | ⟨p, before⟩
    · cases (List.cons.inj heq).1
    · exact h.apart before u v after (List.cons.inj heq).2

theorem cons_kept (h : IsCut symbols ps) (hunfit : Unfit symbols cs (charsOf ps))
    (hapart : ∀ v after, ps ≠ .kept v :: after) : IsCut symbols (.kept cs :: ps) where
  longest before token after heq := by
    rcases before with _ | ⟨p, before⟩
    · cases (List.cons.inj heq).1
    · exact h.longest before token after (List.cons.inj heq).2
  unfit before ds after heq := by
    rcases before with _ | ⟨p, before⟩
    · obtain ⟨hpiece, rfl⟩ := List.cons.inj heq
      obtain rfl := Piece.kept.inj hpiece
      exact hunfit
    · exact h.unfit before ds after (List.cons.inj heq).2
  apart before u v after heq := by
    rcases before with _ | ⟨p, before⟩
    · exact hapart v after (List.cons.inj heq).2
    · exact h.apart before u v after (List.cons.inj heq).2

/-! ### There is only one way -/

theorem longest_head (h : IsCut symbols (.symbol token :: ps)) :
    IsLongest symbols (token.text.toList ++ charsOf ps) token :=
  h.longest [] token ps rfl

theorem not_kept (h : IsCut symbols (.symbol token :: ps)) (hcs : cs ≠ [])
    (heq : token.text.toList ++ charsOf ps = cs ++ charsOf qs) : ¬ IsCut symbols (.kept cs :: qs) := by
  intro hkept
  have hlongest := h.longest_head
  rw [heq] at hlongest
  exact hkept.unfit [] cs qs rfl [] cs rfl hcs token hlongest.mem hlongest.1

/-- Kept characters do not go on where other kept characters end. -/
theorem eq_nil_of_kept {as : List Char} (h : IsCut symbols (.kept cs :: ps))
    (h' : IsCut symbols (.kept (cs ++ as) :: qs)) (heq : charsOf ps = as ++ charsOf qs) : as = [] := by
  by_contra has
  rcases ps with _ | ⟨token | ds, ps⟩
  · exact has (List.append_eq_nil_iff.1 heq.symm).1
  · have hlongest := h.tail.longest_head
    rw [charsOf_cons, Piece.chars_symbol] at heq
    rw [heq] at hlongest
    exact h'.unfit [] (cs ++ as) qs rfl cs as rfl has token hlongest.mem hlongest.1
  · exact h.apart [] cs ds ps rfl

theorem head_unique (hp : IsCut symbols (p :: ps)) (hq : IsCut symbols (q :: qs)) (hpne : .kept [] ∉ p :: ps)
    (hqne : .kept [] ∉ q :: qs) (heq : charsOf (p :: ps) = charsOf (q :: qs)) : p = q := by
  simp only [List.mem_cons, not_or] at hpne hqne
  rw [charsOf_cons, charsOf_cons] at heq
  rcases p with token | cs <;> rcases q with other | ds
  · have hlongest := hp.longest_head
    have hother := hq.longest_head
    rw [Piece.chars_symbol, Piece.chars_symbol] at heq
    rw [← heq] at hother
    rw [hlongest.unique hother]
  · rw [Piece.chars_symbol, Piece.chars_kept] at heq
    exact absurd hq (hp.not_kept (by rintro rfl; exact hqne.1 rfl) heq)
  · rw [Piece.chars_symbol, Piece.chars_kept] at heq
    exact absurd hp (hq.not_kept (by rintro rfl; exact hpne.1 rfl) heq.symm)
  · rw [Piece.chars_kept, Piece.chars_kept] at heq
    rcases List.append_eq_append_iff.1 heq with ⟨as, rfl, hrest⟩ | ⟨as, rfl, hrest⟩
    · rw [hp.eq_nil_of_kept hq hrest, List.append_nil]
    · rw [hq.eq_nil_of_kept hp hrest, List.append_nil]

theorem charsOf_ne_nil (h : IsCut symbols (p :: ps)) (hne : .kept [] ∉ p :: ps) : charsOf (p :: ps) ≠ [] := by
  intro hnil
  rw [charsOf_cons, List.append_eq_nil_iff] at hnil
  rcases p with token | cs
  · exact h.longest_head.1.1 hnil.1
  · rw [Piece.chars_kept] at hnil
    rw [hnil.1] at hne
    exact hne List.mem_cons_self

/-- **There is only one way to cut a text** into pieces that are not empty. -/
theorem unique (hps : IsCut symbols ps) (hqs : IsCut symbols qs) (hpne : .kept [] ∉ ps) (hqne : .kept [] ∉ qs)
    (heq : charsOf ps = charsOf qs) : ps = qs := by
  induction ps generalizing qs with
  | nil =>
    rcases qs with _ | ⟨q, qs⟩
    · rfl
    · exact absurd heq.symm (hqs.charsOf_ne_nil hqne)
  | cons p ps ih =>
    rcases qs with _ | ⟨q, qs⟩
    · exact absurd heq (hps.charsOf_ne_nil hpne)
    · obtain rfl := hps.head_unique hqs hpne hqne heq
      rw [charsOf_cons, charsOf_cons, List.append_cancel_left_eq] at heq
      rw [ih hps.tail hqs.tail (fun h => hpne (List.mem_cons_of_mem _ h)) (fun h => hqne (List.mem_cons_of_mem _ h)) heq]

end IsCut

/-! ### Scanning cuts that way -/

section Scan

variable {symbols : List Token} {pending rest : List Char}

/-- The piece that pending characters make, if there are any. -/
def pendingPiece (pending : List Char) : List Piece := if pending = [] then [] else [.kept pending]

theorem map_pendingPiece (pending : List Char) : (pendingPiece pending).map Piece.token = pendingOperand pending := by
  unfold pendingPiece pendingOperand
  rcases pending with _ | ⟨c, cs⟩ <;> rfl

theorem kept_nil_notMem_pendingPiece (pending : List Char) : .kept [] ∉ pendingPiece pending := by
  unfold pendingPiece
  split
  · exact List.not_mem_nil
  · next hne =>
    intro hmem
    exact hne (Piece.kept.inj (List.mem_singleton.1 hmem)).symm

theorem charsOf_append (ps qs : List Piece) : charsOf (ps ++ qs) = charsOf ps ++ charsOf qs :=
  List.flatMap_append

theorem charsOf_pendingPiece (pending : List Char) : charsOf (pendingPiece pending) = pending := by
  unfold pendingPiece
  split
  · next hnil => rw [hnil, charsOf_nil]
  · rw [charsOf_cons, Piece.chars_kept, charsOf_nil, List.append_nil]

theorem unfit_nil : Unfit symbols [] rest := by
  intro u v h hne
  exact absurd (List.append_eq_nil_iff.1 h.symm).2 hne

/-- A character at which no symbol begins is kept. -/
theorem Unfit.append {c : Char} (h : Unfit symbols pending (c :: rest)) (hc : ∀ s ∈ symbols, ¬ s.Fits (c :: rest)) :
    Unfit symbols (pending ++ [c]) rest := by
  intro u v heq hne s hs
  obtain rfl | ⟨w, d, rfl⟩ := v.eq_nil_or_concat'
  · exact absurd rfl hne
  rw [← List.append_assoc] at heq
  obtain ⟨rfl, hd⟩ := List.append_inj' heq rfl
  obtain rfl := List.singleton_inj.1 hd
  rw [List.append_assoc, List.singleton_append]
  by_cases hw : w = []
  · rw [hw, List.nil_append]
    exact hc s hs
  · exact h u w rfl hw s hs

theorem IsCut.prependPending {ps : List Piece} (h : IsCut symbols ps) (hunfit : Unfit symbols pending (charsOf ps))
    (hapart : ∀ v after, ps ≠ .kept v :: after) : IsCut symbols (pendingPiece pending ++ ps) := by
  unfold pendingPiece
  split
  · exact h
  · exact h.cons_kept hunfit hapart

/-- Scanning keeps the rules. -/
theorem exists_isCut (hpending : Unfit symbols pending rest) :
    ∃ pieces, IsCut symbols pieces ∧ .kept [] ∉ pieces ∧ charsOf pieces = pending ++ rest ∧
      pieces.map Piece.token = scanFrom (longestFirst symbols) pending rest := by
  fun_induction scanFrom (longestFirst symbols) pending rest with
  | case1 pending =>
    refine ⟨pendingPiece pending ++ [], IsCut.nil.prependPending hpending (by simp), ?_, ?_, ?_⟩
    · rw [List.append_nil]
      exact kept_nil_notMem_pendingPiece pending
    · rw [charsOf_append, charsOf_pendingPiece, charsOf_nil]
    · rw [List.append_nil, map_pendingPiece]
  | case2 pending c tail symbol hsymbol ih =>
    obtain ⟨ps, hcut, hne, hchars, htokens⟩ := ih unfit_nil
    have hlongest := isLongest_of_leading? hsymbol
    have hrest : symbol.text.toList ++ charsOf ps = c :: tail := by
      rw [hchars, List.nil_append]
      exact List.prefix_iff_eq_append.1 hlongest.1.2
    have hcovered : charsOf (.symbol symbol :: ps) = c :: tail := hrest
    refine ⟨pendingPiece pending ++ .symbol symbol :: ps, ?_, ?_, ?_, ?_⟩
    · apply (hcut.cons_symbol (by rwa [hrest])).prependPending
      · rwa [hcovered]
      · simp
    · simp [kept_nil_notMem_pendingPiece, hne]
    · rw [charsOf_append, charsOf_pendingPiece, hcovered]
    · rw [List.map_append, map_pendingPiece, List.map_cons, htokens]
      rfl
  | case3 pending c tail hnone ih =>
    have hc : ∀ s ∈ symbols, ¬ s.Fits (c :: tail) := fun s hs =>
      leading?_eq_none_iff.1 hnone s ((longestFirst_perm symbols).mem_iff.2 hs)
    obtain ⟨ps, hcut, hne, hchars, htokens⟩ := ih (hpending.append hc)
    refine ⟨ps, hcut, hne, ?_, htokens⟩
    rw [hchars, List.append_assoc, List.singleton_append]

theorem exists_isScan (symbols : List Token) (text : List Char) :
    ∃ pieces, IsScan symbols text pieces ∧ pieces.map Piece.token = scanChars symbols text := by
  by_cases hblank : Text.unspaced text = []
  · refine ⟨[.kept []], ⟨IsCut.nil.cons_kept unfit_nil (by simp), ?_, fun _ => rfl, absurd hblank⟩, ?_⟩
    · rw [hblank]
      rfl
    · rw [scanChars, hblank, scanFrom]
      rfl
  · have hstart : Unfit symbols [] (Text.unspaced text) := unfit_nil
    obtain ⟨pieces, hcut, hne, hchars, htokens⟩ := exists_isCut hstart
    refine ⟨pieces, ⟨hcut, hchars, fun h => absurd h hblank, fun _ => hne⟩, ?_⟩
    rw [scanChars, ← htokens]
    split
    · next hnil =>
      rw [List.map_eq_nil_iff] at hnil
      rw [hnil] at hchars
      exact absurd hchars.symm hblank
    · rfl

theorem IsScan.unique {text : List Char} {ps qs : List Piece} (hps : IsScan symbols text ps)
    (hqs : IsScan symbols text qs) : ps = qs := by
  by_cases hblank : Text.unspaced text = []
  · rw [hps.blank hblank, hqs.blank hblank]
  · apply hps.toIsCut.unique hqs.toIsCut (hps.kept_ne_nil hblank) (hqs.kept_ne_nil hblank)
    exact hps.lossless.trans hqs.lossless.symm

/-- **Scanning** gives the tokens of the only way to cut a text by the rules. -/
theorem scan_eq_iff (symbols : List Token) (text : String) (tokens : List Token) :
    scan symbols text = tokens ↔
      ∃ pieces, IsScan symbols text.toList pieces ∧ pieces.map Piece.token = tokens := by
  obtain ⟨pieces, hscan, htokens⟩ := exists_isScan symbols text.toList
  constructor
  · intro h
    exact ⟨pieces, hscan, htokens.trans h⟩
  · rintro ⟨others, hothers, rfl⟩
    rw [hothers.unique hscan]
    exact htokens.symm

/-- The longer of two symbols, the first of two of one length, and none of the empty ones. -/
example : scan [relation "", operator "+" 1, operand "++", operator "++" 2] " a+ ++b" =
    [operand "a", operand "++", operator "+" 1, operand "b"] := by
  cbv

end Scan

end LinearRelations.Token
