/-
  CommentQuota.Proofs.Spans — which functions a sequence of tokens holds.

  The functions are found by the symbols of the tokens alone. So tokens at other places lead to the
  same functions at other places, and tokens that are no bracket may be left out behind an opening
  brace.

  - `spans_map`: functions of tokens at other places.
  - `spans_inert`: tokens that open and close nothing, directly behind an opening brace.
  - `spans_eq_append_cons`: where the tokens of a function stand, and that the functions behind it
    are found in what follows it.
-/

import CommentQuota.Proofs.Places
import CommentQuota.Syntax.Functions

namespace CommentQuota

/-- A function with its tokens put elsewhere. -/
def FunctionSpan.map (g : Token → Token) (f : FunctionSpan) : FunctionSpan :=
  ⟨g f.first, f.name, g f.opening, g f.closing⟩

namespace Token

/-- The token is neither a parenthesis nor a brace. -/
def Inert (t : Token) : Prop :=
  t.isSymbol '(' = false ∧ t.isSymbol ')' = false ∧ t.isSymbol Functions.openBrace = false ∧
    t.isSymbol Functions.closeBrace = false

theorem isSymbol_congr {t u : Token} (hk : u.kind = t.kind) (ht : u.text = t.text) (c : Char) :
    u.isSymbol c = t.isSymbol c := by
  rw [isSymbol, isSymbol, hk, ht]

theorem isSymbol_eq_true {t : Token} {c : Char} : t.isSymbol c = true ↔ t.kind = .symbol ∧ t.text = [c] := by
  simp [isSymbol]

theorem isSymbol_unique {t : Token} {c d : Char} (h : t.isSymbol c = true) (hd : c ≠ d) : t.isSymbol d = false := by
  rw [Bool.eq_false_iff]
  intro h'
  have := (isSymbol_eq_true.mp h).2.symm.trans (isSymbol_eq_true.mp h').2
  exact hd (by simpa using this)

end Token

namespace Functions

/-! ## One step -/

section steps

variable {opening closing : Char} {t : Token} {ts : List Token}

theorem closeGroup_opening (depth : Nat) (h : t.isSymbol opening = true) :
    closeGroup opening closing depth (t :: ts) = closeGroup opening closing (depth + 1) ts := by
  cases depth <;> simp [closeGroup, h]

theorem closeGroup_closing_zero (ho : t.isSymbol opening = false) (h : t.isSymbol closing = true) :
    closeGroup opening closing 0 (t :: ts) = (some t, ts) := by
  simp [closeGroup, h, ho]

theorem closeGroup_closing_succ (depth : Nat) (ho : t.isSymbol opening = false) (h : t.isSymbol closing = true) :
    closeGroup opening closing (depth + 1) (t :: ts) = closeGroup opening closing depth ts := by
  simp [closeGroup, h, ho]

theorem closeGroup_other (depth : Nat) (ho : t.isSymbol opening = false) (h : t.isSymbol closing = false) :
    closeGroup opening closing depth (t :: ts) = closeGroup opening closing depth ts := by
  cases depth <;> simp [closeGroup, h, ho]

variable {item : Item}

theorem spans_semicolon (h : t.isSymbol ';' = true) : spans item (t :: ts) = spans {} ts := by
  rw [spans, if_pos h]

theorem spans_group (hs : t.isSymbol ';' = false) (h : t.isSymbol '(' = true) :
    spans item (t :: ts) =
      spans ⟨some (item.first.getD t), (closeGroup '(' ')' 0 ts).1,
        some (item.name.getD ((item.before.map (·.text)).getD [])), true⟩ (closeGroup '(' ')' 0 ts).2 := by
  rw [spans, if_neg (by simp [hs]), if_pos h]

theorem spans_body (h : t.isSymbol openBrace = true) (hg : item.afterGroup = true) {c : Token} {rest : List Token}
    (hc : closeGroup openBrace closeBrace 0 ts = (some c, rest)) :
    spans item (t :: ts) = ⟨item.first.getD t, item.name.getD [], t, c⟩ :: spans {} rest := by
  have hs : t.isSymbol ';' = false := Token.isSymbol_unique h (by decide)
  have hp : t.isSymbol '(' = false := Token.isSymbol_unique h (by decide)
  rw [spans, if_neg (by simp [hs]), if_neg (by simp [hp]), if_pos h]
  simp only [hc, hg]

theorem spans_block (h : t.isSymbol openBrace = true)
    (hno : item.afterGroup = true → (closeGroup openBrace closeBrace 0 ts).1 = none) :
    spans item (t :: ts) =
      spans ⟨some (item.first.getD t), (closeGroup openBrace closeBrace 0 ts).1, item.name, false⟩
        (closeGroup openBrace closeBrace 0 ts).2 := by
  have hs : t.isSymbol ';' = false := Token.isSymbol_unique h (by decide)
  have hp : t.isSymbol '(' = false := Token.isSymbol_unique h (by decide)
  rw [spans, if_neg (by simp [hs]), if_neg (by simp [hp]), if_pos h]
  cases hg : item.afterGroup with
  | false => rfl
  | true => simp only [hno hg]

theorem spans_other (hs : t.isSymbol ';' = false) (hp : t.isSymbol '(' = false) (hb : t.isSymbol openBrace = false) :
    spans item (t :: ts) = spans ⟨some (item.first.getD t), some t, item.name, false⟩ ts := by
  rw [spans, if_neg (by simp [hs]), if_neg (by simp [hp]), if_neg (by simp [hb])]

end steps

/-! ## Tokens at other places -/

/-- What has been read of an item, at other places. -/
def Item.map (g : Token → Token) (item : Item) : Item :=
  ⟨item.first.map g, item.before.map g, item.name, item.afterGroup⟩

theorem Item.map_first_getD (g : Token → Token) (item : Item) (t : Token) :
    (item.map g).first.getD (g t) = g (item.first.getD t) := by
  cases h : item.first <;> simp [Item.map, h]

section map

variable {g : Token → Token} (hk : ∀ t, (g t).kind = t.kind) (ht : ∀ t, (g t).text = t.text)

include hk ht

theorem closeGroup_map (opening closing : Char) (depth : Nat) (ts : List Token) :
    closeGroup opening closing depth (ts.map g) =
      ((closeGroup opening closing depth ts).1.map g, (closeGroup opening closing depth ts).2.map g) := by
  have hsym : ∀ t c, (g t).isSymbol c = t.isSymbol c := fun t => Token.isSymbol_congr (hk t) (ht t)
  induction ts generalizing depth with
  | nil => simp [closeGroup]
  | cons t ts ih =>
    rw [List.map_cons]
    by_cases ho : t.isSymbol opening = true
    · rw [closeGroup_opening depth (by rw [hsym, ho]), closeGroup_opening depth ho, ih]
    by_cases hc : t.isSymbol closing = true
    · cases depth with
      | zero =>
        rw [closeGroup_closing_zero (by simp [hsym, ho]) (by rw [hsym, hc]), closeGroup_closing_zero (by simp [ho]) hc]
        rfl
      | succ d =>
        rw [closeGroup_closing_succ d (by simp [hsym, ho]) (by rw [hsym, hc]),
          closeGroup_closing_succ d (by simp [ho]) hc, ih]
    · rw [closeGroup_other depth (by simp [hsym, ho]) (by simp [hsym, hc]),
        closeGroup_other depth (by simp [ho]) (by simp [hc]), ih]

theorem spans_map (item : Item) (ts : List Token) :
    spans (item.map g) (ts.map g) = (spans item ts).map (·.map g) := by
  have hsym : ∀ t c, (g t).isSymbol c = t.isSymbol c := fun t => Token.isSymbol_congr (hk t) (ht t)
  have hbefore : ∀ i : Item, (i.map g).before.map (·.text) = i.before.map (·.text) := by
    intro i; cases h : i.before <;> simp [Item.map, h, ht]
  fun_induction spans item ts with
  | case1 item => simp [spans]
  | case2 item t ts hs ih =>
    rw [List.map_cons, spans_semicolon (by rw [hsym, hs])]
    exact ih
  | case3 item t ts first hs hp r name ih =>
    rw [List.map_cons, spans_group (by simp [hsym, hs]) (by rw [hsym, hp]), closeGroup_map hk ht, hbefore,
      Item.map_first_getD]
    exact ih
  | case4 item t ts first hs hp hb r closing hc hg ih =>
    have hclose : closeGroup openBrace closeBrace 0 (ts.map g) = (some (g closing), r.2.map g) := by
      rw [closeGroup_map hk ht]
      exact Prod.ext (by rw [hc]; rfl) rfl
    have hg : (item.map g).afterGroup = true := hg
    rw [List.map_cons, spans_body (by rw [hsym, hb]) hg hclose, Item.map_first_getD, List.map_cons]
    exact congrArg _ ih
  | case5 item t ts first hs hp hb r hno ih =>
    have hnone : item.afterGroup = true → r.1 = none := by
      intro hg
      cases hr : r.1 with
      | none => rfl
      | some c => exact (hno c hg hr).elim
    rw [List.map_cons, spans_block (by rw [hsym, hb]) (by
      intro hg; rw [closeGroup_map hk ht]; simp [show (closeGroup openBrace closeBrace 0 ts).1 = none from hnone hg]),
      closeGroup_map hk ht, Item.map_first_getD]
    exact ih
  | case6 item t ts first hs hp hb ih =>
    rw [List.map_cons, spans_other (by simp [hsym, hs]) (by simp [hsym, hp]) (by simp [hsym, hb]), Item.map_first_getD]
    exact ih

end map

/-! ## Tokens that do not matter -/

theorem closeGroup_inert {opening closing : Char} (depth : Nat) {G : List Token} (ts : List Token)
    (h : ∀ t ∈ G, t.isSymbol opening = false ∧ t.isSymbol closing = false) :
    closeGroup opening closing depth (G ++ ts) = closeGroup opening closing depth ts := by
  induction G with
  | nil => rfl
  | cons t G ih =>
    obtain ⟨ho, hc⟩ := h t (by simp)
    rw [List.cons_append, closeGroup_other depth ho hc, ih (fun u hu => h u (by simp [hu]))]

/-- A group closes before a token `b` that does not close it, or else what stands behind `b` without
    a bracket does not matter to it. -/
theorem closeGroup_behind {opening closing : Char} (depth : Nat) (A : List Token) {b : Token} {G : List Token}
    (ts : List Token) (hb : b.isSymbol closing = false)
    (h : ∀ t ∈ G, t.isSymbol opening = false ∧ t.isSymbol closing = false) :
    (∃ c A', A'.length < A.length ∧ closeGroup opening closing depth (A ++ b :: (G ++ ts)) = (c, A' ++ b :: (G ++ ts)) ∧
        closeGroup opening closing depth (A ++ b :: ts) = (c, A' ++ b :: ts)) ∨
      closeGroup opening closing depth (A ++ b :: (G ++ ts)) = closeGroup opening closing depth (A ++ b :: ts) := by
  induction A generalizing depth with
  | nil =>
    right
    by_cases ho : b.isSymbol opening = true
    · rw [List.nil_append, List.nil_append, closeGroup_opening depth ho, closeGroup_opening depth ho,
        closeGroup_inert _ ts h]
    · have ho : b.isSymbol opening = false := by simpa using ho
      rw [List.nil_append, List.nil_append, closeGroup_other depth ho hb, closeGroup_other depth ho hb,
        closeGroup_inert _ ts h]
  | cons a A ih =>
    have step : ∀ d, (∀ x, closeGroup opening closing depth (a :: x) = closeGroup opening closing d x) →
        (∃ c A', A'.length < (a :: A).length ∧
          closeGroup opening closing depth (a :: A ++ b :: (G ++ ts)) = (c, A' ++ b :: (G ++ ts)) ∧
          closeGroup opening closing depth (a :: A ++ b :: ts) = (c, A' ++ b :: ts)) ∨
        closeGroup opening closing depth (a :: A ++ b :: (G ++ ts)) = closeGroup opening closing depth (a :: A ++ b :: ts) := by
      intro d hd
      rw [List.cons_append, List.cons_append, hd, hd]
      rcases ih d with ⟨c, A', hlt, h1, h2⟩ | heq
      · exact .inl ⟨c, A', Nat.lt_succ_of_lt hlt, h1, h2⟩
      · exact .inr heq
    by_cases ho : a.isSymbol opening = true
    · exact step _ fun x => closeGroup_opening depth ho
    have ho : a.isSymbol opening = false := by simpa using ho
    by_cases hc : a.isSymbol closing = true
    · cases depth with
      | zero => exact .inl ⟨some a, A, by simp, closeGroup_closing_zero ho hc, closeGroup_closing_zero ho hc⟩
      | succ d => exact step d fun x => closeGroup_closing_succ d ho hc
    · exact step _ fun x => closeGroup_other depth ho (by simpa using hc)

/-- Groups in two sequences close with the same token, and what follows them holds the same functions. -/
def SameGroup (opening closing : Char) (ts us : List Token) : Prop :=
  (closeGroup opening closing 0 ts).1 = (closeGroup opening closing 0 us).1 ∧
    ∀ item, spans item (closeGroup opening closing 0 ts).2 = spans item (closeGroup opening closing 0 us).2

theorem spans_cons_congr (item : Item) {t : Token} {ts us : List Token}
    (hplain : t.isSymbol openBrace = false → ∀ item, spans item ts = spans item us)
    (hparen : t.isSymbol '(' = true → SameGroup '(' ')' ts us)
    (hbrace : t.isSymbol openBrace = true → SameGroup openBrace closeBrace ts us) :
    spans item (t :: ts) = spans item (t :: us) := by
  by_cases hb : t.isSymbol openBrace = true
  · obtain ⟨hc, hrest⟩ := hbrace hb
    by_cases hg : item.afterGroup = true
    · cases hclose : (closeGroup openBrace closeBrace 0 ts).1 with
      | some c =>
        rw [spans_body hb hg (Prod.ext hclose rfl), spans_body hb hg (Prod.ext (hc.symm.trans hclose) rfl), hrest]
      | none => rw [spans_block hb (fun _ => hclose), spans_block hb (fun _ => hc.symm.trans hclose), hc, hrest]
    · rw [spans_block hb (fun e => absurd e hg), spans_block hb (fun e => absurd e hg), hc, hrest]
  have hb : t.isSymbol openBrace = false := by simpa using hb
  by_cases hs : t.isSymbol ';' = true
  · rw [spans_semicolon hs, spans_semicolon hs, hplain hb]
  have hs : t.isSymbol ';' = false := by simpa using hs
  by_cases hp : t.isSymbol '(' = true
  · obtain ⟨hc, hrest⟩ := hparen hp
    rw [spans_group hs hp, spans_group hs hp, hc, hrest]
  · have hp : t.isSymbol '(' = false := by simpa using hp
    rw [spans_other hs hp hb, spans_other hs hp hb, hplain hb]

/-- Tokens that open and close nothing may be left out directly behind an opening brace. -/
theorem spans_inert (item : Item) (A : List Token) {b : Token} {G : List Token} (ts : List Token)
    (hb : b.isSymbol openBrace = true) (h : ∀ t ∈ G, t.Inert) :
    spans item (A ++ b :: (G ++ ts)) = spans item (A ++ b :: ts) := by
  have hparen : ∀ t ∈ G, t.isSymbol '(' = false ∧ t.isSymbol ')' = false := fun t ht => ⟨(h t ht).1, (h t ht).2.1⟩
  have hbrace : ∀ t ∈ G, t.isSymbol openBrace = false ∧ t.isSymbol closeBrace = false := fun t ht => (h t ht).2.2
  have hb1 : b.isSymbol ')' = false := Token.isSymbol_unique hb (by decide)
  have hb2 : b.isSymbol closeBrace = false := Token.isSymbol_unique hb (by decide)
  -- the tokens before `b` are passed over singly or with the groups they open
  induction hn : A.length using Nat.strongRecOn generalizing A item with
  | _ n ih =>
  cases A with
  | nil =>
    refine spans_cons_congr item (fun e => by simp [hb] at e) (fun e => ?_) (fun _ => ?_)
    · simp [Token.isSymbol_unique hb (by decide : openBrace ≠ '(')] at e
    · rw [SameGroup, closeGroup_inert 0 ts hbrace]
      exact ⟨rfl, fun _ => rfl⟩
  | cons a A =>
    subst hn
    have group : ∀ opening closing, b.isSymbol closing = false →
        (∀ t ∈ G, t.isSymbol opening = false ∧ t.isSymbol closing = false) →
        SameGroup opening closing (A ++ b :: (G ++ ts)) (A ++ b :: ts) := by
      intro opening closing hbc hG
      rcases closeGroup_behind 0 A ts hbc hG with ⟨c, A', hlt, h1, h2⟩ | heq
      · rw [SameGroup, h1, h2]
        exact ⟨rfl, fun i => ih _ (Nat.lt_succ_of_lt hlt) i A' rfl⟩
      · rw [SameGroup, heq]
        exact ⟨rfl, fun _ => rfl⟩
    exact spans_cons_congr item (fun _ i => ih _ (Nat.lt_succ_self _) i A rfl) (fun _ => group _ _ hb1 hparen)
      (fun _ => group _ _ hb2 hbrace)

/-! ## Where the tokens of a function stand -/

theorem closeGroup_suffix (opening closing : Char) (depth : Nat) (ts : List Token) :
    ∃ B, ts = B ++ (closeGroup opening closing depth ts).2 := by
  induction ts generalizing depth with
  | nil => exact ⟨[], by simp [closeGroup]⟩
  | cons t ts ih =>
    have step : ∀ d, closeGroup opening closing depth (t :: ts) = closeGroup opening closing d ts →
        ∃ B, t :: ts = B ++ (closeGroup opening closing depth (t :: ts)).2 := by
      intro d hd
      obtain ⟨B, hB⟩ := ih d
      exact ⟨t :: B, by rw [hd, List.cons_append, ← hB]⟩
    by_cases ho : t.isSymbol opening = true
    · exact step _ (closeGroup_opening depth ho)
    have ho : t.isSymbol opening = false := by simpa using ho
    by_cases hc : t.isSymbol closing = true
    · cases depth with
      | zero => exact ⟨[t], by rw [closeGroup_closing_zero ho hc]; rfl⟩
      | succ d => exact step d (closeGroup_closing_succ d ho hc)
    · exact step _ (closeGroup_other depth ho (by simpa using hc))

theorem closeGroup_eq_some {opening closing : Char} {depth : Nat} {ts : List Token} {c : Token} {rest : List Token}
    (h : closeGroup opening closing depth ts = (some c, rest)) :
    c.isSymbol closing = true ∧ ∃ B, ts = B ++ c :: rest := by
  induction ts generalizing depth with
  | nil => simp [closeGroup] at h
  | cons t ts ih =>
    have step : ∀ d, closeGroup opening closing depth (t :: ts) = closeGroup opening closing d ts →
        c.isSymbol closing = true ∧ ∃ B, t :: ts = B ++ c :: rest := by
      intro d hd
      obtain ⟨hsym, B, hB⟩ := ih (hd.symm.trans h)
      exact ⟨hsym, t :: B, by rw [hB, List.cons_append]⟩
    by_cases ho : t.isSymbol opening = true
    · exact step _ (closeGroup_opening depth ho)
    have ho : t.isSymbol opening = false := by simpa using ho
    by_cases hc : t.isSymbol closing = true
    · cases depth with
      | zero =>
        rw [closeGroup_closing_zero ho hc, Prod.mk.injEq, Option.some.injEq] at h
        obtain ⟨rfl, rfl⟩ := h
        exact ⟨hc, [], rfl⟩
      | succ d => exact step d (closeGroup_closing_succ d ho hc)
    · exact step _ (closeGroup_other depth ho (by simpa using hc))

/-- A function among those of a sequence: its first token comes before the brace that opens its body
    and that before the one that closes it, and the functions behind it are those of what follows. -/
structure Splits (item : Item) (ts : List Token) (f : FunctionSpan) (gs : List FunctionSpan)
    (A B C : List Token) : Prop where
  tokens_eq : ts = A ++ f.opening :: (B ++ f.closing :: C)
  opens : f.opening.isSymbol openBrace = true
  closes : f.closing.isSymbol closeBrace = true
  first_mem : item.first = some f.first ∨ f.first ∈ A
  later_eq : gs = spans {} C

theorem Splits.first_mem_front {ts A B C : List Token} {f : FunctionSpan} {gs : List FunctionSpan}
    (h : Splits {} ts f gs A B C) : f.first ∈ A := by
  rcases h.first_mem with e | e
  · simp at e
  · exact e

/-- Reading on from the tokens `t :: B` with an item that starts no later than `t`. -/
theorem Splits.behind {item item' : Item} {t : Token} {D ts A B C : List Token} {f : FunctionSpan}
    {gs : List FunctionSpan} (hfirst : item'.first = none ∨ item'.first = some (item.first.getD t))
    (h : Splits item' ts f gs A B C) : Splits item (t :: D ++ ts) f gs (t :: D ++ A) B C where
  tokens_eq := by rw [h.tokens_eq, List.append_assoc]
  opens := h.opens
  closes := h.closes
  first_mem := by
    rcases h.first_mem with hf | hf
    · rcases hfirst with e | e
      · simp [e] at hf
      · rw [e, Option.some.injEq] at hf
        cases hi : item.first with
        | none => right; simp [← hf, hi]
        | some u => left; simp [← hf, hi]
    · exact .inr (List.mem_append_right _ hf)
  later_eq := h.later_eq

theorem spans_eq_append_cons {gs : List FunctionSpan} {f : FunctionSpan} (item : Item) (ts : List Token) :
    ∀ fs, (item.afterGroup = true → item.first ≠ none) → spans item ts = fs ++ f :: gs →
      ∃ A B C, Splits item ts f gs A B C := by
  fun_induction spans item ts with
  | case1 item =>
    intro fs _ h; simp at h
  | case2 item t ts hs ih =>
    intro fs hi h
    obtain ⟨A, B, C, hsplit⟩ := ih _ (by simp) h
    exact ⟨_, B, C, hsplit.behind (D := []) (.inl rfl)⟩
  | case3 item t ts first hs hp r name ih =>
    intro fs hi h
    obtain ⟨A, B, C, hsplit⟩ := ih _ (by simp) h
    obtain ⟨D, hD⟩ := closeGroup_suffix '(' ')' 0 ts
    exact ⟨t :: D ++ A, B, C, by rw [hD]; exact hsplit.behind (.inr rfl)⟩
  | case4 item t ts first hs hp hb r closing hc hg ih =>
    intro fs hi h
    have hr : closeGroup openBrace closeBrace 0 ts = (some closing, r.2) := Prod.ext hc rfl
    obtain ⟨hcl, D, hD⟩ := closeGroup_eq_some hr
    cases fs with
    | nil =>
      rw [List.nil_append, List.cons.injEq] at h
      obtain ⟨rfl, rfl⟩ := h
      refine ⟨[], D, r.2, by rw [hD]; rfl, hb, hcl, .inl ?_, rfl⟩
      obtain ⟨u, hu⟩ := Option.ne_none_iff_exists'.mp (hi hg)
      simp [first, hu]
    | cons f' fs =>
      rw [List.cons_append, List.cons.injEq] at h
      obtain ⟨A, B, C, hsplit⟩ := ih _ (by simp) h.2
      have hD : t :: ts = t :: (D ++ [closing]) ++ r.2 := by rw [hD]; simp
      exact ⟨t :: (D ++ [closing]) ++ A, B, C, by rw [hD]; exact hsplit.behind (.inl rfl)⟩
  | case5 item t ts first hs hp hb r hno ih =>
    intro fs hi h
    obtain ⟨A, B, C, hsplit⟩ := ih _ (by simp) h
    obtain ⟨D, hD⟩ := closeGroup_suffix openBrace closeBrace 0 ts
    exact ⟨t :: D ++ A, B, C, by rw [hD]; exact hsplit.behind (.inr rfl)⟩
  | case6 item t ts first hs hp hb ih =>
    intro fs hi h
    obtain ⟨A, B, C, hsplit⟩ := ih _ (by simp) h
    exact ⟨_, B, C, hsplit.behind (D := []) (.inr rfl)⟩

end Functions

end CommentQuota
