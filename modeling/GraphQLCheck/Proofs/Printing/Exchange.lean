import GraphQLCheck.Proofs.NameCounts
import GraphQLCheck.Proofs.Printing.Locality

/-!
# Arguments exchanged for equal ones

Each argument of a document has been read at a place among the lexemes of the text (`Slot`): a name,
other lexemes, and then a name or a closing parenthesis. If other lexemes at that place are read as
an argument with the same name and the same value, then the whole is read as a document that gives
the same arguments, list by list (`exists_slot`). This passes from readers to their sequences and
repetitions (`Exchanges`): what stands before the place is read as it was, and what stands after it
has the same tokens.
-/

namespace GraphQLCheck

/-! ### The arguments in a document -/

/-- An argument as a name and a value. -/
def Argument.given (a : Argument) : String × Literal := (a.name, a.value)

/-- What lists of arguments give. -/
def Argument.allGiven (lists : List (List Argument)) : List (List (String × Literal)) :=
  lists.map fun args => args.map given

@[simp] theorem Argument.allGiven_cons (args : List Argument) (lists : List (List Argument)) :
    allGiven (args :: lists) = args.map given :: allGiven lists := rfl

@[simp] theorem Argument.allGiven_append (lists lists' : List (List Argument)) :
    allGiven (lists ++ lists') = allGiven lists ++ allGiven lists' :=
  List.map_append

namespace Selection

/-- The arguments of a selection and those of its directives. -/
def ownArguments (item : Selection) : List (List Argument) :=
  item.arguments?.toList.map (·.2) ++ item.directives.map (·.arguments)

/-- The arguments in a selection, at any depth. -/
def argumentsIn (item : Selection) : List (List Argument) := item.withInner.flatMap ownArguments

theorem flatMap_nested {α : Type} (f : Selection → List α) (items : List Selection) :
    (nested items).flatMap f = items.flatMap fun item => item.withInner.flatMap f := by
  induction items with
  | nil => rfl
  | cons item rest ih => rw [nested, List.flatMap_append, ih, List.flatMap_cons]

theorem argumentsIn_field (node : Field) (span : Span) (items : List Selection) :
    (field node span items).argumentsIn =
      node.arguments :: (node.directives.map (·.arguments) ++ items.flatMap argumentsIn) := by
  rw [argumentsIn, withInner, List.flatMap_cons, flatMap_nested]
  rfl

theorem argumentsIn_spread (node : FragmentSpread) :
    (spread node).argumentsIn = node.directives.map (·.arguments) := by
  rw [argumentsIn, withInner, List.flatMap_singleton]
  rfl

theorem argumentsIn_inline (node : InlineFragment) (span : Span) (items : List Selection) :
    (inline node span items).argumentsIn =
      node.directives.map (·.arguments) ++ items.flatMap argumentsIn := by
  rw [argumentsIn, withInner, List.flatMap_cons, flatMap_nested]
  rfl

end Selection

/-- The arguments in a selection set. -/
def SelectionSet.argumentsIn (s : SelectionSet) : List (List Argument) :=
  s.items.flatMap Selection.argumentsIn

/-- The arguments in a definition. -/
def Definition.argumentsIn : Definition → List (List Argument)
  | operation o => o.directives.map (·.arguments) ++ o.selectionSet.argumentsIn
  | bare set => set.argumentsIn
  | fragment f => f.directives.map (·.arguments) ++ f.selectionSet.argumentsIn

theorem Document.map_argumentLists (d : Document) :
    d.argumentLists.map (·.2) = d.definitions.flatMap Definition.argumentsIn := by
  rw [argumentLists, List.map_flatMap]
  refine List.flatMap_congr fun definition _ => ?_
  have hdirectives (list : List Directive) :
      (list.map (·.argumentList)).map (·.2) = list.map (·.arguments) := by
    rw [List.map_map]
    rfl
  have hitems (items : List Selection) : ((Selection.nested items).flatMap fun item =>
      item.arguments?.toList ++ item.directives.map (·.argumentList)).map (·.2) =
        items.flatMap Selection.argumentsIn := by
    rw [List.map_flatMap]
    refine Eq.trans ?_ (Selection.flatMap_nested Selection.ownArguments items)
    refine List.flatMap_congr fun item _ => ?_
    rw [List.map_append, hdirectives]
    rfl
  rw [List.map_append, hdirectives]
  cases definition with
  | operation o => exact congrArg _ (hitems _)
  | bare set => exact hitems _
  | fragment f => exact congrArg _ (hitems _)

namespace Reader

/-! ### Places of arguments -/

/-- Where an argument stands among lexemes. -/
structure Slot where
  /-- What is read before it. -/
  before : List Lexeme
  /-- Its name. -/
  name : Lexeme
  /-- What else it is read from. -/
  others : List Lexeme
  /-- What is read after it. -/
  after : List Lexeme
  /-- Whether it has to be constant. -/
  constant : Bool
  /-- How many brackets may be opened in it. -/
  depth : ℕ

/-- The next token is one that may follow an argument. -/
def EndsArgument (token? : Option Token) : Prop :=
  ∃ token ∈ token?, isName token = true ∨ isMark .closeParen token = true

variable {α β γ δ : Type} {v : α → γ} {w : β → δ} {a : Argument} {ts mid rest : List Lexeme}

/-- A reader reads an argument in a slot, and with an equal argument there what it reads gives the
same. -/
structure Slot.Holds (s : Slot) (v : α → γ) (r : Reader α) (x : α) (a : Argument)
    (ts rest : List Lexeme) : Prop where
  lexemes : ts = s.before ++ (s.name :: s.others ++ (s.after ++ rest))
  reads : argument s.constant s.depth (s.name :: s.others ++ (s.after ++ rest)) =
    .ok (a, s.after ++ rest)
  next : EndsArgument ((s.after ++ rest).head?.map Lexeme.token)
  exchange : ∀ others after rest' a', s.after.map Lexeme.token = after.map Lexeme.token →
    rest.head?.map Lexeme.token = rest'.head?.map Lexeme.token →
    argument s.constant s.depth (s.name :: others ++ (after ++ rest')) = .ok (a', after ++ rest') →
    a.given = a'.given →
      ∃ x', r (s.before ++ (s.name :: others ++ (after ++ rest'))) = .ok (x', rest') ∧ v x = v x'

/-- A reader that goes on where another one stops has the slots of the other one. -/
theorem Slot.Holds.left {s : Slot} {r : Reader α} {R : Reader β} {x : α} {y : β}
    {used : List Lexeme} (h : s.Holds v r x a ts (used ++ rest))
    (hR : ∀ ts' x' used' rest', r ts' = .ok (x', used' ++ rest') → v x = v x' →
      Agree False (List.map Lexeme.token) used used' →
      Agree False (Option.map Lexeme.token) rest.head? rest'.head? →
      ts.head? = ts'.head? → (used' ++ rest').length < ts'.length →
        ∃ y', R ts' = .ok (y', rest') ∧ w y = w y') :
    ∃ s' : Slot, s'.Holds w R y a ts rest := by
  obtain ⟨before, name, others, after, constant, depth⟩ := s
  refine ⟨⟨before, name, others, after ++ used, constant, depth⟩, ?_, ?_, ?_, ?_⟩
  · simpa only [List.append_assoc] using h.lexemes
  · simpa only [List.append_assoc] using h.reads
  · simpa only [List.append_assoc] using h.next
  · intro others' after' rest' a' hafter hrest hread hgiven
    replace hrest : Agree False (Option.map Lexeme.token) rest.head? rest'.head? :=
      ⟨hrest, False.elim⟩
    obtain ⟨first, second, rfl, hfirst, hsecond⟩ :=
      agree_append (⟨hafter, False.elim⟩ : Agree False _ _ after')
    simp only [List.append_assoc] at hread ⊢
    obtain ⟨x', hx', hview⟩ :=
      h.exchange others' first _ a' hfirst.1 (agree_head hsecond hrest).1 hread hgiven
    refine hR _ x' second rest' hx' hview hsecond hrest ?_ ?_
    · rw [h.lexemes]
      cases before <;> rfl
    · simp only [List.length_append, List.length_cons]
      omega

/-- A reader that goes on with another one has the slots of the other one. -/
theorem Slot.Holds.right {s : Slot} {r : Reader α} {R : Reader β} {x : α} {y : β}
    {used : List Lexeme} (h : s.Holds v r x a mid rest)
    (hR : ∀ mid' x' rest', r mid' = .ok (x', rest') → v x = v x' → mid.head? = mid'.head? →
      ∃ y', R (used ++ mid') = .ok (y', rest') ∧ w y = w y') :
    ∃ s' : Slot, s'.Holds w R y a (used ++ mid) rest := by
  obtain ⟨before, name, others, after, constant, depth⟩ := s
  refine ⟨⟨used ++ before, name, others, after, constant, depth⟩, ?_, h.reads, h.next, ?_⟩
  · rw [h.lexemes, List.append_assoc]
  · intro others' after' rest' a' hafter hrest hread hgiven
    obtain ⟨x', hx', hview⟩ := h.exchange others' after' rest' a' hafter hrest hread hgiven
    rw [List.append_assoc]
    refine hR _ x' rest' hx' hview ?_
    -- The place begins with the name of the argument, which stays.
    rw [h.lexemes]
    cases before <;> rfl

/-! ### Readers with arguments -/

/-- A reader looks at what it takes and at the next token, it and another one follow each other, and
each argument of what it reads is known or has a slot, if `K` holds of the next token. -/
structure Exchanges (K : Option Token → Prop) (known : List Argument) (args : α → List Argument)
    (v : α → γ) (r r' : Reader α) : Prop where
  near : Follows True v r r
  follows : Follows False v r r'
  back : Follows False v r' r
  slot : ∀ ⦃ts x rest⦄, r ts = .ok (x, rest) → K (rest.head?.map Lexeme.token) →
    ∀ a ∈ args x, a ∈ known ∨ ∃ s : Slot, s.Holds v r x a ts rest

/-- Any token may be next. -/
def anyNext : Option Token → Prop := fun _ => True

variable {K : Option Token → Prop} {known : List Argument} {args : α → List Argument}
  {args' : β → List Argument}

theorem exchanges_plain {r : Reader α} (h : ∀ E, Follows E v r r) :
    Exchanges K known (fun _ => []) v r r where
  near := h True
  follows := h False
  back := h False
  slot := fun _ _ _ _ _ _ ha => by cases ha

theorem exchanges_pure {x x' : α} (hview : v x = v x') (hknown : ∀ a ∈ args x, a ∈ known) :
    Exchanges K known args v (pure x) (pure x') where
  near := follows_pure (Agree.refl x)
  follows := follows_pure ⟨hview, False.elim⟩
  back := follows_pure ⟨hview.symm, False.elim⟩
  slot := by
    intro ts y rest hread _ a ha
    obtain ⟨rfl, -⟩ := pure_eq_ok.mp hread
    exact .inl (hknown a ha)

theorem exchanges_refuse : Exchanges K known args v refuse refuse where
  near := follows_refuse
  follows := follows_refuse
  back := follows_refuse
  slot := fun _ _ _ hread => (refuse_eq_ok.mp hread).elim

/-- In a sequence the arguments of the first result are known to the second reader. -/
theorem exchanges_seq {K' : Option Token → Prop} {r r' : Reader α} {f f' : α → Reader β}
    (hr : Exchanges K' [] args v r r')
    (hnext : ∀ ⦃x mid y rest⦄, f x mid = .ok (y, rest) → K (rest.head?.map Lexeme.token) →
      K' (mid.head?.map Lexeme.token))
    (hf : ∀ x x', v x = v x' → Exchanges K (known ++ args x) args' w (f x) (f' x')) :
    Exchanges K known args' w (r >>= f) (r' >>= f') where
  near := follows_bind hr.near fun x x' hx => by
    obtain rfl := hx.2 trivial
    exact (hf x x rfl).near
  follows := follows_bind hr.follows fun x x' hx => (hf x x' hx.1).follows
  back := follows_bind hr.back fun x' x hx => (hf x x' hx.1.symm).back
  slot := by
    intro ts y rest hread hrest a ha
    obtain ⟨x, mid, hfirst, hsecond⟩ := bind_eq_ok.mp hread
    rcases (hf x x rfl).slot hsecond hrest a ha with hknown | ⟨s, hs⟩
    · rcases List.mem_append.mp hknown with hknown | hx
      · exact .inl hknown
      · obtain ⟨s, hs⟩ := (hr.slot hfirst (hnext hsecond hrest) a hx).resolve_left List.not_mem_nil
        obtain ⟨used, rfl, -⟩ := (hf x x rfl).near hsecond
        refine .inr (hs.left fun ts' x' used' rest' hfirst' hview hused hrest' _ _ => ?_)
        have hfollows := (hf x x' hview).follows.trans (hf x' x' rfl).back
        obtain ⟨y', hsecond', hy⟩ := hfollows.on hsecond hused hrest'
        exact ⟨y', bind_eq_ok.mpr ⟨x', _, hfirst', hsecond'⟩, hy.1⟩
    · obtain ⟨used, rfl, -⟩ := hr.near hfirst
      refine .inr (hs.right fun mid' y' rest' hsecond' hview hhead => ?_)
      obtain ⟨x', hfirst', hx⟩ := hr.near.on hfirst (Agree.refl used)
        (⟨congrArg _ hhead, fun _ => hhead⟩ : Agree True _ _ mid'.head?)
      obtain rfl := hx.2 trivial
      exact ⟨y', bind_eq_ok.mpr ⟨x, _, hfirst', hsecond'⟩, hview⟩

theorem exchanges_bind {r r' : Reader α} {f f' : α → Reader β}
    (hr : Exchanges anyNext [] args v r r')
    (hf : ∀ x x', v x = v x' → Exchanges K (known ++ args x) args' w (f x) (f' x')) :
    Exchanges K known args' w (r >>= f) (r' >>= f') :=
  exchanges_seq hr (fun _ _ _ _ _ _ => trivial) hf

theorem exchanges_map {r r' : Reader α} {f f' : α → β} (hr : Exchanges anyNext [] args v r r')
    (hf : ∀ x x', v x = v x' → w (f x) = w (f' x')) (hknown : ∀ x, args' (f x) ⊆ known ++ args x) :
    Exchanges K known args' w (f <$> r) (f' <$> r') := by
  rw [map_eq_pure_bind, map_eq_pure_bind]
  exact exchanges_bind hr fun x x' hview => exchanges_pure (hf x x' hview) (hknown x)

theorem exchanges_optional (starts : Token → Bool) {item item' : Reader α}
    (h : Exchanges anyNext [] args v item item') :
    Exchanges K known (fun a? => a?.toList.flatMap args) (Option.map v) (optional starts item)
      (optional starts item') := by
  refine exchanges_bind (exchanges_plain fun _ => follows_peek) fun token? _ htoken => ?_
  obtain rfl : token? = _ := htoken
  split
  · split
    · exact exchanges_map h (fun x x' hview => congrArg some hview) fun x a ha =>
        List.mem_append_right _ (by simpa using ha)
    · exact exchanges_pure rfl fun a ha => by cases ha
  · exact exchanges_pure rfl fun a ha => by cases ha

theorem next_of_many {starts : Token → Bool} {item : Reader α} {xs : List α}
    (hK : ∀ token, starts token = true → K (some token)) (h : many starts item mid = .ok (xs, rest))
    (hrest : K (rest.head?.map Lexeme.token)) : K (mid.head?.map Lexeme.token) := by
  rcases many_steps h with ⟨-, rfl, -⟩ | ⟨t, _, _, _, _, rfl, -, hstarts, -⟩
  · exact hrest
  · exact hK t.token hstarts

theorem exchanges_many (starts : Token → Bool) (hK : ∀ token, starts token = true → K (some token))
    {item : Reader α} (h : Exchanges K [] args v item item) :
    Exchanges K known (·.flatMap args) (List.map v) (many starts item) (many starts item) where
  near := follows_many starts h.near
  follows := follows_many starts h.follows
  back := follows_many starts h.back
  slot := by
    intro ts xs rest hread hrest a ha
    refine .inr ?_
    induction xs generalizing ts with
    | nil => cases ha
    | cons x xs ih =>
      rcases many_steps hread with
        ⟨heq, -⟩ | ⟨t, others, _, _, mid, rfl, heq, hstarts, hitem, hless, hmany⟩
      · cases heq
      · cases heq
        rw [List.flatMap_cons, List.mem_append] at ha
        rcases ha with hx | hxs
        · have hnext := next_of_many hK hmany hrest
          obtain ⟨s, hs⟩ := (h.slot hitem hnext a hx).resolve_left List.not_mem_nil
          obtain ⟨used, rfl, -⟩ := follows_many starts h.near hmany
          refine hs.left fun ts' x' used' rest' hitem' hview hused hrest' hhead hlength => ?_
          obtain ⟨xs', hmany', hxs⟩ := (follows_many starts h.follows).on hmany hused hrest'
          obtain ⟨others', rfl⟩ := List.head?_eq_some_iff.mp hhead.symm
          exact ⟨x' :: xs', many_next hstarts hitem' (Nat.le_of_lt_succ hlength) hmany',
            congrArg₂ List.cons hview hxs.1⟩
        · obtain ⟨s, hs⟩ := ih hmany hxs
          obtain ⟨used, hused, -⟩ := h.near hitem
          rw [hused]
          refine hs.right fun mid' xs' rest' hmany' hview hhead => ?_
          rw [hused] at hitem
          obtain ⟨x', hitem', hx⟩ := h.near.on hitem (Agree.refl used)
            (⟨congrArg _ hhead, fun _ => hhead⟩ : Agree True _ _ mid'.head?)
          obtain rfl := hx.2 trivial
          cases used with
          | nil =>
            have hlength := congrArg List.length hused
            simp only [List.nil_append, List.length_cons] at hlength
            omega
          | cons first used =>
            obtain ⟨rfl, -⟩ := List.cons.inj hused
            refine ⟨x :: xs', many_next hstarts hitem' ?_ hmany', congrArg (v x :: ·) hview⟩
            exact (List.sublist_append_right used mid').length_le

theorem exchanges_many1 (starts : Token → Bool) (hK : ∀ token, starts token = true → K (some token))
    {item : Reader α} (h : Exchanges K [] args v item item) :
    Exchanges K known (·.flatMap args) (List.map v) (many1 starts item) (many1 starts item) := by
  refine exchanges_seq h (fun x mid y rest hread hrest => ?_) fun x x' hx => ?_
  · obtain ⟨xs, _, hmany, hpure⟩ := bind_eq_ok.mp hread
    obtain ⟨-, rfl⟩ := pure_eq_ok.mp hpure
    exact next_of_many hK hmany hrest
  · refine exchanges_seq (exchanges_many starts hK h) (fun xs mid y rest hread hrest => ?_)
      fun xs xs' hxs => ?_
    · obtain ⟨-, rfl⟩ := pure_eq_ok.mp hread
      exact hrest
    · refine exchanges_pure (congrArg₂ List.cons hx hxs) fun a ha => ?_
      rw [List.append_assoc]
      exact List.mem_append_right known ha

/-! ### The grammar -/

theorem argument_eq_ok {constant : Bool} {depth : ℕ} :
    argument constant depth ts = .ok (a, rest) ↔
      ∃ p q mid, ts = ⟨.name a.name, p⟩ :: ⟨.punctuator .colon, q⟩ :: mid ∧
        written constant depth mid = .ok (a.written, rest) := by
  simp only [argument, bind_eq_ok, name_eq_ok, mark_eq_ok, pure_eq_ok]
  constructor
  · rintro ⟨parameter, _, ⟨p, rfl⟩, q, mid, rfl, w, _, hwritten, rfl, rfl⟩
    exact ⟨p, q, mid, rfl, hwritten⟩
  · rintro ⟨p, q, mid, rfl, hwritten⟩
    exact ⟨a.name, _, ⟨p, rfl⟩, q, mid, rfl, a.written, rest, hwritten, rfl, rfl⟩

theorem exchanges_argument (constant : Bool) (depth : ℕ) :
    Exchanges EndsArgument known (fun a => [a]) Argument.given (argument constant depth)
      (argument constant depth) := by
  have hfollows (E : Prop) :
      Follows E Argument.given (argument constant depth) (argument constant depth) := by
    refine follows_bind follows_name fun parameter _ hparameter => ?_
    obtain rfl := agree_id hparameter
    refine follows_bind (follows_expect _) fun _ _ _ => ?_
    refine follows_map (follows_written constant depth) fun w w' hw => ?_
    exact ⟨congrArg (Prod.mk parameter) hw.1, fun e => by rw [hw.2 e]⟩
  refine ⟨hfollows True, hfollows False, hfollows False, fun ts b rest hread hrest a ha => ?_⟩
  obtain rfl := List.mem_singleton.mp ha
  obtain ⟨p, q, mid, rfl, hwritten⟩ := argument_eq_ok.mp hread
  obtain ⟨used, rfl, -⟩ := follows_written (E := True) constant depth hwritten
  refine .inr ⟨⟨[], ⟨.name a.name, p⟩, ⟨.punctuator .colon, q⟩ :: used, [], constant, depth⟩, rfl,
    hread, hrest, fun others after rest' a' hafter _ hread' hgiven => ?_⟩
  obtain rfl := List.map_eq_nil_iff.mp hafter.symm
  exact ⟨a', hread', hgiven⟩

theorem exchanges_arguments (constant : Bool) (depth : ℕ) :
    Exchanges anyNext known id (List.map Argument.given) (arguments constant depth)
      (arguments constant depth) := by
  cases depth with
  | zero =>
    refine exchanges_bind (exchanges_plain fun _ => follows_skip? _) fun taken _ htaken => ?_
    obtain rfl : taken = _ := htaken
    split
    · exact exchanges_refuse
    · exact exchanges_pure rfl fun a ha => by cases ha
  | succ depth =>
    refine exchanges_bind (exchanges_plain fun _ => follows_skip? _) fun taken _ htaken => ?_
    obtain rfl : taken = _ := htaken
    split
    · -- The list is closed, so that each argument is followed by a name or by the closing mark.
      refine exchanges_seq (exchanges_many1 isName (fun token h => ⟨token, rfl, .inl h⟩)
        (exchanges_argument constant depth)) (fun args mid y rest hread _ => ?_)
        fun args args' hview => ?_
      · obtain ⟨p, _, hmark, -⟩ := bind_eq_ok.mp hread
        rw [mark_eq_ok.mp hmark]
        exact ⟨_, rfl, .inr rfl⟩
      · refine exchanges_bind (exchanges_plain fun _ => follows_expect _) fun _ _ _ => ?_
        exact exchanges_pure hview fun a ha => by simp_all
    · exact exchanges_pure rfl fun a ha => by cases ha

/-- The arguments in what is read have slots. -/
abbrev ExchangesIn (known : List Argument) (lists : α → List (List Argument)) (r r' : Reader α) :
    Prop :=
  Exchanges anyNext known (fun x => (lists x).flatten) (fun x => Argument.allGiven (lists x)) r r'

theorem exchanges_directive (constant : Bool) (depth : ℕ) :
    ExchangesIn known (fun d => [d.arguments]) (directive constant depth)
      (directive constant depth) := by
  refine exchanges_bind (exchanges_plain fun _ => follows_expect _) fun p p' _ => ?_
  refine exchanges_bind (exchanges_plain fun _ => follows_name) fun text text' _ => ?_
  refine exchanges_map (exchanges_arguments constant depth) (fun args args' hview => ?_) ?_
  · exact congrArg (fun given => [given]) hview
  · intro args a ha
    simp_all

theorem Exchanges.flatMap {lists : α → List (List Argument)} {r r' : Reader (List α)}
    (h : Exchanges anyNext [] (·.flatMap fun x => (lists x).flatten)
      (List.map fun x => Argument.allGiven (lists x)) r r') :
    ExchangesIn known (·.flatMap lists) r r' := by
  have hflat (xs : List α) : Argument.allGiven (xs.flatMap lists) =
      (xs.map fun x => Argument.allGiven (lists x)).flatten := by
    rw [Argument.allGiven, List.map_flatMap, List.flatMap_def]
    rfl
  rw [← id_map r, ← id_map r']
  refine exchanges_map h (fun xs xs' hview => ?_) fun xs a ha => List.mem_append_right known ?_
  · dsimp only [id]
    rw [hflat, hflat, hview]
  · obtain ⟨args, hargs, ha⟩ := List.mem_flatten.mp ha
    obtain ⟨x, hx, hargs⟩ := List.mem_flatMap.mp hargs
    exact List.mem_flatMap.mpr ⟨x, hx, List.mem_flatten.mpr ⟨args, hargs, ha⟩⟩

theorem exchanges_directives (constant : Bool) (depth : ℕ) :
    ExchangesIn known (fun dirs => dirs.map (·.arguments)) (directives constant depth)
      (directives constant depth) := by
  simp only [ExchangesIn, List.map_eq_flatMap]
  exact (exchanges_many _ (fun _ _ => trivial) (exchanges_directive constant depth)).flatMap

variable {depth : ℕ} {set : Reader SelectionSet}

theorem exchanges_field (hset : ExchangesIn [] SelectionSet.argumentsIn set set) :
    ExchangesIn known Selection.argumentsIn (field depth set) (field depth set) := by
  refine exchanges_bind (exchanges_plain fun _ => follows_here) fun p p' _ => ?_
  refine exchanges_bind (exchanges_plain fun _ => follows_name) fun first _ hfirst => ?_
  obtain rfl : first = _ := hfirst
  have halias (E : Prop) :
      Follows E id (do let _ ← mark .colon; name) (do let _ ← mark .colon; name) :=
    follows_bind (follows_expect _) fun _ _ _ => follows_name
  refine exchanges_bind (exchanges_plain fun E => follows_optional _ (halias E))
    fun alias? _ halias? => ?_
  obtain rfl : alias? = _ := by simpa only [Option.map_id, id] using halias?
  refine exchanges_bind (exchanges_arguments false depth) fun args args' hargs => ?_
  refine exchanges_bind (exchanges_directives false depth) fun dirs dirs' hdirs => ?_
  refine exchanges_bind (exchanges_optional _ hset) fun sub? sub?' hsub => ?_
  cases sub? with
  | none =>
    obtain rfl := Option.map_eq_none_iff.mp hsub.symm
    refine exchanges_pure ?_ ?_
    · cases alias? <;> simp [Selection.argumentsIn_field, hargs, hdirs]
    · cases alias? <;> grind [Selection.argumentsIn_field]
  | some sub =>
    obtain ⟨sub', rfl, hitems⟩ := Option.map_eq_some_iff.mp hsub.symm
    replace hitems : Argument.allGiven (sub'.items.flatMap Selection.argumentsIn) =
      Argument.allGiven (sub.items.flatMap Selection.argumentsIn) := hitems
    refine exchanges_pure ?_ ?_
    · cases alias? <;> simp [Selection.argumentsIn_field, hargs, hdirs, hitems]
    · cases alias? <;> grind [Selection.argumentsIn_field, SelectionSet.argumentsIn]

theorem exchanges_inlineFragment (hset : ExchangesIn [] SelectionSet.argumentsIn set set)
    (p p' : Position) (condition? : Option String) :
    ExchangesIn known Selection.argumentsIn (inlineFragment depth set p condition?)
      (inlineFragment depth set p' condition?) := by
  refine exchanges_bind (exchanges_directives false depth) fun dirs dirs' hdirs => ?_
  refine exchanges_bind hset fun sub sub' hsub => exchanges_pure ?_ ?_
  · rw [Selection.argumentsIn_inline, Selection.argumentsIn_inline, Argument.allGiven_append,
      Argument.allGiven_append]
    exact congrArg₂ (· ++ ·) hdirs hsub
  · grind [Selection.argumentsIn_inline, SelectionSet.argumentsIn]

theorem exchanges_afterEllipsis (hset : ExchangesIn [] SelectionSet.argumentsIn set set) :
    ExchangesIn known Selection.argumentsIn (afterEllipsis depth set)
      (afterEllipsis depth set) := by
  refine exchanges_bind (exchanges_plain fun _ => follows_here) fun p p' _ => ?_
  refine exchanges_bind (exchanges_plain fun _ => follows_peek) fun token? _ htoken => ?_
  obtain rfl : token? = _ := htoken
  split
  · refine exchanges_bind (exchanges_plain fun _ => follows_take) fun _ _ _ => ?_
    refine exchanges_bind (exchanges_plain fun _ => follows_name) fun text _ htext => ?_
    obtain rfl : text = _ := htext
    exact exchanges_inlineFragment hset p p' _
  · refine exchanges_bind (exchanges_plain fun _ => follows_take) fun _ _ _ => ?_
    refine exchanges_bind (exchanges_directives false depth) fun dirs dirs' hdirs => ?_
    refine exchanges_pure ?_ ?_
    · rw [Selection.argumentsIn_spread, Selection.argumentsIn_spread]
      exact hdirs
    · grind [Selection.argumentsIn_spread]
  · exact exchanges_inlineFragment hset p p' none

theorem exchanges_selection (hset : ExchangesIn [] SelectionSet.argumentsIn set set) :
    ExchangesIn known Selection.argumentsIn (selection depth set) (selection depth set) := by
  refine exchanges_bind (exchanges_plain fun _ => follows_skip? _) fun taken _ htaken => ?_
  obtain rfl : taken = _ := htaken
  split
  · exact exchanges_afterEllipsis hset
  · exact exchanges_field hset

theorem exchanges_selectionSet (depth : ℕ) :
    ExchangesIn known SelectionSet.argumentsIn (selectionSet depth) (selectionSet depth) := by
  induction depth generalizing known with
  | zero => exact exchanges_refuse
  | succ depth ih =>
    refine exchanges_bind (exchanges_plain fun _ => follows_expect _) fun p p' _ => ?_
    refine exchanges_bind (exchanges_many1 _ (fun _ _ => trivial) (exchanges_selection ih)).flatMap
      fun items items' hview => ?_
    refine exchanges_bind (exchanges_plain fun _ => follows_expect _) fun q q' _ => ?_
    refine exchanges_pure hview ?_
    grind [SelectionSet.argumentsIn]

theorem exchanges_operation (kind : OperationKind) (p p' : Position) :
    ExchangesIn known Definition.argumentsIn (operation depth kind p)
      (operation depth kind p') := by
  refine exchanges_bind (exchanges_plain fun _ => follows_optional _ follows_name)
    fun name? _ _ => ?_
  refine exchanges_bind (exchanges_plain fun _ => follows_variableDefinitions depth) fun _ _ _ => ?_
  refine exchanges_bind (exchanges_directives false depth) fun dirs dirs' hdirs => ?_
  refine exchanges_bind (exchanges_selectionSet depth) fun s s' hs => exchanges_pure ?_ ?_
  · rw [Definition.argumentsIn, Definition.argumentsIn, Argument.allGiven_append,
      Argument.allGiven_append]
    exact congrArg₂ (· ++ ·) hdirs hs
  · grind [Definition.argumentsIn]

theorem exchanges_fragment (p p' : Position) :
    ExchangesIn known Definition.argumentsIn (fragment depth p) (fragment depth p') := by
  refine exchanges_bind (exchanges_plain fun _ => follows_name) fun text _ _ => ?_
  refine exchanges_bind (exchanges_plain fun _ => follows_expect _) fun _ _ _ => ?_
  refine exchanges_bind (exchanges_plain fun _ => follows_name) fun condition _ _ => ?_
  refine exchanges_bind (exchanges_directives false depth) fun dirs dirs' hdirs => ?_
  refine exchanges_bind (exchanges_selectionSet depth) fun s s' hs => exchanges_pure ?_ ?_
  · rw [Definition.argumentsIn, Definition.argumentsIn, Argument.allGiven_append,
      Argument.allGiven_append]
    exact congrArg₂ (· ++ ·) hdirs hs
  · grind [Definition.argumentsIn]

theorem exchanges_definition (depth : ℕ) :
    ExchangesIn known Definition.argumentsIn (definition depth) (definition depth) := by
  refine exchanges_bind (exchanges_plain fun _ => follows_here) fun p p' _ => ?_
  refine exchanges_bind (exchanges_plain fun _ => follows_peek) fun token? _ htoken => ?_
  obtain rfl : token? = _ := htoken
  have htake : Exchanges (α := Lexeme) anyNext [] (fun _ => []) Lexeme.token take take :=
    exchanges_plain fun _ => follows_take
  split
  · exact exchanges_bind htake fun _ _ _ => exchanges_operation .query p p'
  · exact exchanges_bind htake fun _ _ _ => exchanges_operation .mutation p p'
  · exact exchanges_bind htake fun _ _ _ => exchanges_operation .subscription p p'
  · exact exchanges_bind htake fun _ _ _ => exchanges_fragment p p'
  · refine exchanges_map (exchanges_selectionSet depth) (fun s s' hs => hs) fun s a ha => ?_
    exact List.mem_append_right _ ha

/-- An argument in a document stands in a slot among the lexemes, and with an equal one there the
definitions that are read give the same arguments. -/
theorem exists_slot {all : List Definition} {args : List Argument}
    (h : definitions ts = .ok (all, rest))
    (hargs : args ∈ all.flatMap Definition.argumentsIn) (ha : a ∈ args) :
    ∃ s : Slot, s.Holds (fun all => Argument.allGiven (all.flatMap Definition.argumentsIn))
      definitions all a ts rest := by
  have hdefinitions :
      ExchangesIn [] (·.flatMap Definition.argumentsIn) definitions definitions := by
    refine exchanges_bind (exchanges_many1 _ (fun _ _ => trivial) (exchanges_definition _)).flatMap
      fun all all' hview => ?_
    refine exchanges_bind (exchanges_plain fun _ => follows_finish) fun _ _ _ => ?_
    exact exchanges_pure hview fun a ha => by simpa using ha
  have hmem : a ∈ (all.flatMap Definition.argumentsIn).flatten :=
    List.mem_flatten.mpr ⟨args, hargs, ha⟩
  exact (hdefinitions.slot h trivial a hmem).resolve_left List.not_mem_nil

end Reader

end GraphQLCheck
