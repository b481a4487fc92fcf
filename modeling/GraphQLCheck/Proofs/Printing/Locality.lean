import GraphQLCheck.Proofs.Printing.ReadBack

/-!
# What readers look at

A reader looks at the lexemes that it takes and at the next one. On other lexemes with the same
tokens it succeeds as well (`Follows`), and what it reads is the same apart from positions: a view of
it that has none is the same, and if the lexemes are the same then so is all of it. Both come from
one law, with a proposition `E` that says whether positions are to agree. The law passes from parts
to the whole, and so literals, types and definitions of variables have it.
-/

namespace GraphQLCheck

/-- The same as far as a view goes, and all the same if `E`. -/
def Agree {α β : Type} (E : Prop) (view : α → β) (x y : α) : Prop := view x = view y ∧ (E → x = y)

namespace Reader

variable {E : Prop} {α β γ δ : Type} {v : α → γ} {w : β → δ}

theorem agree_id {x y : α} (h : Agree E id x y) : x = y := h.1

theorem Agree.refl (x : α) : Agree E v x x := ⟨rfl, fun _ => rfl⟩

/-- The other reader succeeds on lexemes that agree with those that the first one takes, and with
the next one, and what both read agrees. -/
def Follows (E : Prop) (v : α → γ) (r r' : Reader α) : Prop :=
  ∀ ⦃ts a rest⦄, r ts = .ok (a, rest) → ∃ used, ts = used ++ rest ∧
    ∀ used' rest', Agree E (List.map Lexeme.token) used used' →
      Agree E (Option.map Lexeme.token) rest.head? rest'.head? →
        ∃ a', r' (used' ++ rest') = .ok (a', rest') ∧ Agree E v a a'

theorem agree_append {xs ys zs : List Lexeme}
    (h : Agree E (List.map Lexeme.token) (xs ++ ys) zs) :
    ∃ xs' ys', zs = xs' ++ ys' ∧ Agree E (List.map Lexeme.token) xs xs' ∧
      Agree E (List.map Lexeme.token) ys ys' := by
  obtain ⟨htokens, hsame⟩ := h
  rw [List.map_append] at htokens
  obtain ⟨xs', ys', rfl, hxs, hys⟩ := List.map_eq_append_iff.mp htokens.symm
  have hlength : xs.length = xs'.length := by
    rw [← List.length_map Lexeme.token, ← hxs, List.length_map]
  refine ⟨xs', ys', rfl, ⟨hxs.symm, fun e => ?_⟩, hys.symm, fun e => ?_⟩
  · exact (List.append_inj (hsame e) hlength).1
  · exact (List.append_inj (hsame e) hlength).2

theorem agree_head {xs xs' rest rest' : List Lexeme}
    (h : Agree E (List.map Lexeme.token) xs xs')
    (hrest : Agree E (Option.map Lexeme.token) rest.head? rest'.head?) :
    Agree E (Option.map Lexeme.token) (xs ++ rest).head? (xs' ++ rest').head? := by
  obtain ⟨htokens, hsame⟩ := h
  cases xs with
  | nil =>
    obtain rfl := List.map_eq_nil_iff.mp htokens.symm
    exact hrest
  | cons x xs =>
    obtain ⟨x', xs', rfl, hx, -⟩ := List.map_eq_cons_iff.mp htokens.symm
    exact ⟨congrArg some hx.symm, fun e => congrArg List.head? (hsame e) |>.trans rfl⟩

theorem agree_cons {x : Lexeme} {xs zs : List Lexeme}
    (h : Agree E (List.map Lexeme.token) (x :: xs) zs) :
    ∃ x' xs', zs = x' :: xs' ∧ Agree E Lexeme.token x x' ∧
      Agree E (List.map Lexeme.token) xs xs' := by
  obtain ⟨htokens, hsame⟩ := h
  obtain ⟨x', xs', rfl, hx, hxs⟩ := List.map_eq_cons_iff.mp htokens.symm
  exact ⟨x', xs', rfl, ⟨hx.symm, fun e => (List.cons.inj (hsame e)).1⟩, hxs.symm,
    fun e => (List.cons.inj (hsame e)).2⟩

theorem agree_nil {zs : List Lexeme} (h : Agree E (List.map Lexeme.token) [] zs) : zs = [] :=
  List.map_eq_nil_iff.mp h.1.symm

/-- A follower reads other lexemes, given which ones the first reader takes. -/
theorem Follows.on {r r' : Reader α} {a : α} {used used' rest rest' : List Lexeme}
    (h : Follows E v r r') (hread : r (used ++ rest) = .ok (a, rest))
    (hused : Agree E (List.map Lexeme.token) used used')
    (hrest : Agree E (Option.map Lexeme.token) rest.head? rest'.head?) :
    ∃ a', r' (used' ++ rest') = .ok (a', rest') ∧ Agree E v a a' := by
  obtain ⟨_, heq, hfollows⟩ := h hread
  obtain rfl := List.append_cancel_right heq
  exact hfollows used' rest' hused hrest

theorem Follows.trans {r r' r'' : Reader α} (h : Follows E v r r') (h' : Follows E v r' r'') :
    Follows E v r r'' := by
  intro ts a rest hread
  obtain ⟨used, rfl, hused⟩ := h hread
  refine ⟨used, rfl, fun used' rest' hused' hrest => ?_⟩
  obtain ⟨a', hread', ha⟩ := hused used rest (Agree.refl used) (Agree.refl _)
  obtain ⟨a'', hread'', ha'⟩ := h'.on hread' hused' hrest
  exact ⟨a'', hread'', ha.1.trans ha'.1, fun e => (ha.2 e).trans (ha'.2 e)⟩

theorem follows_pure {a a' : α} (h : Agree E v a a') : Follows E v (pure a) (pure a') := by
  intro ts b rest hread
  obtain ⟨rfl, rfl⟩ := pure_eq_ok.mp hread
  refine ⟨[], rfl, fun used' rest' hused _ => ?_⟩
  rw [agree_nil hused]
  exact ⟨a', rfl, h⟩

theorem follows_refuse : Follows E v refuse refuse := by
  intro ts a rest hread
  exact (refuse_eq_ok.mp hread).elim

theorem follows_bind {r r' : Reader α} {f f' : α → Reader β} (hr : Follows E v r r')
    (hf : ∀ a a', Agree E v a a' → Follows E w (f a) (f' a')) :
    Follows E w (r >>= f) (r' >>= f') := by
  intro ts b rest hread
  obtain ⟨a, mid, hfirst, hsecond⟩ := bind_eq_ok.mp hread
  obtain ⟨used, rfl, hused⟩ := hr hfirst
  obtain ⟨more, rfl, -⟩ := hf a a (Agree.refl a) hsecond
  refine ⟨used ++ more, (List.append_assoc _ _ _).symm, fun used' rest' hagree hrest => ?_⟩
  obtain ⟨first, second, rfl, hused', hmore'⟩ := agree_append hagree
  obtain ⟨a', hfirst', ha⟩ := hused first (second ++ rest') hused' (agree_head hmore' hrest)
  obtain ⟨b', hsecond', hb⟩ := (hf a a' ha).on hsecond hmore' hrest
  rw [List.append_assoc]
  exact ⟨b', bind_eq_ok.mpr ⟨a', _, hfirst', hsecond'⟩, hb⟩

theorem follows_map {r r' : Reader α} {f f' : α → β} (hr : Follows E v r r')
    (hf : ∀ a a', Agree E v a a' → Agree E w (f a) (f' a')) :
    Follows E w (f <$> r) (f' <$> r') := by
  rw [map_eq_pure_bind, map_eq_pure_bind]
  exact follows_bind hr fun a a' ha => follows_pure (hf a a' ha)

theorem follows_take : Follows E Lexeme.token take take := by
  intro ts t rest hread
  obtain rfl := take_eq_ok.mp hread
  refine ⟨[t], rfl, fun used' rest' hused _ => ?_⟩
  obtain ⟨t', _, rfl, ht, hnil⟩ := agree_cons hused
  rw [agree_nil hnil]
  exact ⟨t', rfl, ht⟩

theorem follows_peek : Follows E id peek peek := by
  intro ts token? rest hread
  obtain ⟨rfl, rfl⟩ := peek_eq_ok.mp hread
  refine ⟨[], rfl, fun used' rest' hused hrest => ?_⟩
  rw [agree_nil hused]
  exact ⟨_, rfl, hrest.1, fun _ => hrest.1⟩

theorem follows_here : Follows E (fun _ => ()) here here := by
  intro ts p rest hread
  obtain ⟨rfl, token, after, rfl⟩ := here_eq_ok.mp hread
  refine ⟨[], rfl, fun used' rest' hused hrest => ?_⟩
  rw [agree_nil hused]
  cases rest' with
  | nil => cases hrest.1
  | cons t' after' =>
    refine ⟨t'.position, rfl, rfl, fun e => ?_⟩
    rw [← Option.some.inj (hrest.2 e)]

theorem follows_skip? (token : Token) : Follows E id (skip? token) (skip? token) := by
  intro ts taken rest hread
  rcases skip?_eq_ok.mp hread with ⟨rfl, p, rfl⟩ | ⟨rfl, rfl, hother⟩
  · refine ⟨[⟨token, p⟩], rfl, fun used' rest' hused _ => ?_⟩
    obtain ⟨⟨_, p'⟩, _, rfl, ⟨rfl, -⟩, hnil⟩ := agree_cons hused
    rw [agree_nil hnil]
    exact ⟨true, skip?_eq_ok.mpr (.inl ⟨rfl, p', rfl⟩), Agree.refl true⟩
  · refine ⟨[], rfl, fun used' rest' hused hrest => ?_⟩
    rw [agree_nil hused]
    refine ⟨false, skip?_eq_ok.mpr (.inr ⟨rfl, rfl, ?_⟩), Agree.refl false⟩
    rintro p after heq
    rw [List.nil_append] at heq
    subst heq
    obtain ⟨⟨_, q⟩, ht, rfl⟩ := Option.map_eq_some_iff.mp hrest.1
    obtain ⟨more, rfl⟩ := List.head?_eq_some_iff.mp ht
    exact hother q more rfl

theorem follows_expect (token : Token) :
    Follows E (fun _ => ()) (expect token) (expect token) := by
  intro ts p rest hread
  obtain rfl := expect_eq_ok.mp hread
  refine ⟨[⟨token, p⟩], rfl, fun used' rest' hused _ => ?_⟩
  obtain ⟨⟨_, p'⟩, _, rfl, ⟨rfl, hsame⟩, hnil⟩ := agree_cons hused
  rw [agree_nil hnil]
  refine ⟨p', expect_eq_ok.mpr rfl, rfl, fun e => ?_⟩
  cases hsame e
  rfl

theorem follows_name : Follows E id name name := by
  intro ts text rest hread
  obtain ⟨p, rfl⟩ := name_eq_ok.mp hread
  refine ⟨[⟨.name text, p⟩], rfl, fun used' rest' hused _ => ?_⟩
  obtain ⟨⟨_, p'⟩, _, rfl, ⟨rfl, -⟩, hnil⟩ := agree_cons hused
  rw [agree_nil hnil]
  exact ⟨text, name_eq_ok.mpr ⟨p', rfl⟩, Agree.refl text⟩

theorem follows_finish : Follows E id finish finish := by
  intro ts u rest hread
  obtain ⟨rfl, rfl⟩ := finish_eq_ok.mp hread
  refine ⟨[], rfl, fun used' rest' hused hrest => ?_⟩
  rw [agree_nil hused]
  cases rest' with
  | nil => exact ⟨(), rfl, Agree.refl u⟩
  | cons t rest' => cases hrest.1

theorem follows_optional (starts : Token → Bool) {item item' : Reader α}
    (h : Follows E v item item') :
    Follows E (Option.map v) (optional starts item) (optional starts item') := by
  refine follows_bind follows_peek fun token? token?' htoken => ?_
  obtain rfl := agree_id htoken
  split
  · split
    · exact follows_map h fun a a' ha => ⟨congrArg some ha.1, fun e => congrArg some (ha.2 e)⟩
    · exact follows_pure (Agree.refl none)
  · exact follows_pure (Agree.refl none)

theorem follows_many (starts : Token → Bool) {item : Reader α} (h : Follows E v item item) :
    Follows E (List.map v) (many starts item) (many starts item) := by
  intro ts as rest hread
  induction as generalizing ts with
  | nil =>
    rcases many_steps hread with ⟨-, rfl, hstop⟩ | ⟨_, _, _, _, _, -, heq, -⟩
    · refine ⟨[], rfl, fun used' rest' hused hrest => ⟨[], ?_, Agree.refl []⟩⟩
      rw [agree_nil hused, List.nil_append]
      cases rest' with
      | nil => rw [many]
      | cons t after => exact many_stop (hstop t.token (hrest.1 ▸ rfl))
    · cases heq
  | cons a as ih =>
    rcases many_steps hread with
      ⟨heq, -⟩ | ⟨t, after, _, _, mid, rfl, heq, hstarts, hitem, hless, hmany⟩
    · cases heq
    · cases heq
      obtain ⟨used, hts, hused⟩ := h hitem
      obtain ⟨more, rfl, hmore⟩ := ih hmany
      -- The item takes the first lexeme.
      cases used with
      | nil =>
        have hlength := congrArg List.length hts
        simp only [List.nil_append, List.length_cons] at hlength
        omega
      | cons first used =>
        obtain ⟨rfl, hafter⟩ := List.cons.inj hts
        refine ⟨t :: used ++ more, by rw [hts, List.append_assoc],
          fun used' rest' hagree hrest => ?_⟩
        obtain ⟨taken, left, rfl, htaken, hleft⟩ := agree_append hagree
        obtain ⟨a', hitem', ha⟩ := hused taken (left ++ rest') htaken (agree_head hleft hrest)
        obtain ⟨as', hmany', has⟩ := hmore left rest' hleft hrest
        obtain ⟨t', taken', rfl, ht, -⟩ := agree_cons htaken
        rw [List.append_assoc]
        refine ⟨a' :: as', many_next (ht.1 ▸ hstarts) hitem' ?_ hmany', ?_⟩
        · exact (List.sublist_append_right taken' _).length_le
        · exact ⟨congrArg₂ List.cons ha.1 has.1, fun e => congrArg₂ List.cons (ha.2 e) (has.2 e)⟩

theorem follows_many1 (starts : Token → Bool) {item : Reader α} (h : Follows E v item item) :
    Follows E (List.map v) (many1 starts item) (many1 starts item) := by
  refine follows_bind h fun a a' ha => follows_bind (follows_many starts h) fun as as' has => ?_
  exact follows_pure ⟨congrArg₂ List.cons ha.1 has.1,
    fun e => congrArg₂ List.cons (ha.2 e) (has.2 e)⟩

/-! ### Literals, types and variables -/

theorem follows_atom (constant : Bool) : Follows E id (atom constant) (atom constant) := by
  refine follows_bind follows_take fun t t' ht => ?_
  rw [← ht.1]
  split
  · split
    · exact follows_refuse
    · exact follows_map follows_name fun text text' h => by rw [agree_id h]; exact Agree.refl _
  · exact follows_pure (Agree.refl _)
  · exact follows_pure (Agree.refl _)
  · exact follows_pure (Agree.refl _)
  · exact follows_pure (Agree.refl _)
  · exact follows_pure (Agree.refl _)
  · exact follows_pure (Agree.refl _)
  · exact follows_pure (Agree.refl _)
  · rintro ts a rest ⟨⟩
  · exact follows_refuse
  · exact follows_refuse

theorem follows_objectField {value : Reader Written}
    (h : Follows E Written.toLiteral value value) :
    Follows E (fun field : FieldName × Written => (field.1.name, field.2.toLiteral))
      (objectField value) (objectField value) := by
  refine follows_bind follows_here fun p p' hp => follows_bind follows_name fun field _ hfield => ?_
  obtain rfl := agree_id hfield
  refine follows_bind (follows_expect _) fun _ _ _ => follows_map h fun w w' hw => ?_
  exact ⟨congrArg (Prod.mk field) hw.1, fun e => by rw [hp.2 e, hw.2 e]⟩

theorem follows_written (constant : Bool) (depth : ℕ) :
    Follows E Written.toLiteral (written constant depth) (written constant depth) := by
  have hatom : Follows E Written.toLiteral (Written.atom <$> atom constant)
      (Written.atom <$> atom constant) :=
    follows_map (follows_atom constant) fun a a' ha => by rw [agree_id ha]; exact Agree.refl _
  induction depth with
  | zero => exact hatom
  | succ depth ih =>
    rw [written]
    refine follows_bind follows_peek fun token? _ htoken => ?_
    obtain rfl := agree_id htoken
    split
    · refine follows_bind follows_take fun _ _ _ => ?_
      refine follows_bind (follows_many _ ih) fun items items' hitems => ?_
      refine follows_bind (follows_expect _) fun _ _ _ => follows_pure ⟨?_, fun e => ?_⟩
      · rw [Written.toLiteral, Written.toLiteral, Written.itemLiterals_eq_map,
          Written.itemLiterals_eq_map, hitems.1]
      · rw [hitems.2 e]
    · refine follows_bind follows_take fun _ _ _ => ?_
      refine follows_bind (follows_many _ (follows_objectField ih)) fun fields fields' hfields => ?_
      refine follows_bind (follows_expect _) fun _ _ _ => follows_pure ⟨?_, fun e => ?_⟩
      · rw [Written.toLiteral, Written.toLiteral, Written.fieldLiterals_eq_map,
          Written.fieldLiterals_eq_map, hfields.1]
      · rw [hfields.2 e]
    · exact hatom

theorem follows_requiredMark (type : TypeRef) :
    Follows E id (requiredMark type) (requiredMark type) := by
  refine follows_bind (follows_skip? _) fun taken _ htaken => ?_
  obtain rfl := agree_id htaken
  split
  · exact follows_pure (Agree.refl _)
  · exact follows_pure (Agree.refl _)

theorem follows_typeRef (depth : ℕ) : Follows E id (typeRef depth) (typeRef depth) := by
  have hnamed : Follows E id (do requiredMark (.named (← name) true))
      (do requiredMark (.named (← name) true)) :=
    follows_bind follows_name fun text _ htext => by
      obtain rfl := agree_id htext
      exact follows_requiredMark _
  induction depth with
  | zero => exact hnamed
  | succ depth ih =>
    refine follows_bind (follows_skip? _) fun taken _ htaken => ?_
    obtain rfl := agree_id htaken
    split
    · refine follows_bind ih fun item _ hitem => follows_bind (follows_expect _) fun _ _ _ => ?_
      obtain rfl := agree_id hitem
      exact follows_requiredMark _
    · exact hnamed

theorem follows_variableDefinition (depth : ℕ) :
    Follows E (fun _ => ()) (variableDefinition depth) (variableDefinition depth) := by
  refine follows_bind (follows_expect _) fun p p' hp => follows_bind follows_name fun text _ h => ?_
  obtain rfl := agree_id h
  refine follows_bind (follows_expect _) fun _ _ _ => ?_
  refine follows_bind (follows_typeRef depth) fun type _ htype => ?_
  obtain rfl := agree_id htype
  have hdefault : Follows E Written.toLiteral (do let _ ← mark .equals; written true depth)
      (do let _ ← mark .equals; written true depth) :=
    follows_bind (follows_expect _) fun _ _ _ => follows_written true depth
  refine follows_bind (follows_optional _ hdefault) fun w? w?' hw => ?_
  exact follows_pure ⟨rfl, fun e => by rw [hp.2 e, hw.2 e]⟩

theorem follows_variableDefinitions (depth : ℕ) :
    Follows E (List.map fun _ => ()) (variableDefinitions depth) (variableDefinitions depth) := by
  cases depth with
  | zero => exact follows_pure (Agree.refl [])
  | succ depth =>
    refine follows_bind (follows_skip? _) fun taken _ htaken => ?_
    obtain rfl := agree_id htaken
    split
    · refine follows_bind (follows_many1 _ (follows_variableDefinition depth)) fun all all' h => ?_
      exact follows_bind (follows_expect _) fun _ _ _ => follows_pure h
    · exact follows_pure (Agree.refl [])

end Reader

end GraphQLCheck
