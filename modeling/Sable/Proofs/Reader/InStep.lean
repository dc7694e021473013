import Sable.Proofs.Reader.MovedBodies
import Sable.Proofs.Reader.Program

/-! Readers in step: they do the same as long as few tokens are left.

A reader that repeats itself, or that stands inside itself, is bounded by the number of tokens left. It does so only after
it has taken a token, so what it makes of readers that are in step is in step with one token more. Hence the bounds never
count, and the equation without them has no other solution. -/
namespace Sable.Reader

variable {α β ι : Type} {s : State} {r r' : Reader α} {next next' : α → Reader β} {limit least : Nat}

/-- From the state `s` both readers do the same. They take tokens from the front, and at least `least` of them if they
give something. -/
structure InStepAt (least : Nat) (s : State) (r r' : Reader α) : Prop where
  same : r' s = r s
  forward : (r s).2.rest <:+ s.rest
  taken : ∀ a, (r s).1 = some a → (r s).2.rest.length + least ≤ s.rest.length

/-- The readers are in step with at most `limit` tokens left. -/
abbrev InStep (limit least : Nat) (r r' : Reader α) : Prop := ∀ s, s.rest.length ≤ limit → InStepAt least s r r'

/-- The reader takes tokens from the front. -/
def Forward (r : Reader α) : Prop := ∀ s, (r s).2.rest <:+ s.rest

theorem Forward.inStep (h : Forward r) : InStep limit 0 r r := fun s _ => ⟨rfl, h s, fun _ _ => (h s).length_le⟩

theorem forward_of_inStep (h : ∀ limit, InStep limit least r r) : Forward r := fun s => (h _ s (Nat.le_refl _)).forward

theorem InStepAt.of_eq {q q' : Reader α} (h : InStepAt least s r r') (hq : q s = r s) (hq' : q' s = r' s) :
    InStepAt least s q q' := by
  constructor <;> rw [hq]
  · rw [hq', h.same]
  · exact h.forward
  · exact h.taken

theorem InStepAt.mono {least' : Nat} (h : InStepAt least s r r') (hleast : least' ≤ least) : InStepAt least' s r r' :=
  ⟨h.same, h.forward, fun a ha => Nat.le_trans (Nat.add_le_add_left hleast _) (h.taken a ha)⟩

theorem InStep.weaken (h : InStep limit 1 r r') : InStep limit 0 r r' := fun s hs => (h s hs).mono (Nat.zero_le _)

theorem InStepAt.bind_of_eq {k : Nat} (h : InStepAt k s r r') (hnext : ∀ a t, r s = (some a, t) →
      t.rest.length + k ≤ s.rest.length → InStepAt (least - k) t (next a) (next' a)) :
    InStepAt least s (r >>= next) (r' >>= next') := by
  obtain ⟨hsame, hforward, htaken⟩ := h
  cases hr : r s with
  | mk found t =>
      rw [hr] at hsame hforward htaken
      cases found with
      | none =>
          have hrun : (r >>= next) s = (none, t) := by rw [run_bind, hr]
          have hrun' : (r' >>= next') s = (none, t) := by rw [run_bind, hsame]
          refine ⟨hrun'.trans hrun.symm, ?_, ?_⟩ <;> rw [hrun]
          · exact hforward
          · exact nofun
      | some a =>
          have hleft : t.rest.length + k ≤ s.rest.length := htaken a rfl
          obtain ⟨hsame', hforward', htaken'⟩ := hnext a t hr hleft
          have hrun : (r >>= next) s = next a t := by rw [run_bind, hr]
          have hrun' : (r' >>= next') s = next' a t := by rw [run_bind, hsame]
          refine ⟨?_, ?_, ?_⟩ <;> rw [hrun]
          · rw [hrun', hsame']
          · exact hforward'.trans hforward
          · intro b hb
            have := htaken' b hb
            omega

theorem InStepAt.bind {k : Nat} (h : InStepAt k s r r') (hnext : ∀ a t, t.rest.length + k ≤ s.rest.length →
      InStepAt (least - k) t (next a) (next' a)) : InStepAt least s (r >>= next) (r' >>= next') :=
  h.bind_of_eq fun a t _ => hnext a t

theorem InStepAt.attempt (h : InStepAt least s r r') : InStepAt 0 s (attempt r) (attempt r') :=
  ⟨by simp only [Reader.attempt, h.same], h.forward, fun _ _ => h.forward.length_le⟩

/-! ## Steps that take no token -/

theorem inStepAt_pure {a : α} : InStepAt 0 s (pure a) (pure a) := ⟨rfl, List.suffix_rfl, fun _ _ => Nat.le_refl _⟩

theorem inStepAt_expected {what : Expectation} : InStepAt least s (expected what : Reader α) (expected what) :=
  ⟨rfl, List.suffix_rfl, nofun⟩

theorem inStepAt_bounded {upTo upTo' : Nat → Reader α} (h : InStepAt least s (upTo s.rest.length) (upTo' s.rest.length)) :
    InStepAt least s (bounded upTo) (bounded upTo') := h.of_eq rfl rfl

theorem inStepAt_here {next next' : Span → Reader β} (h : InStepAt least s (next s.here) (next' s.here)) :
    InStepAt least s (here >>= next) (here >>= next') := h.of_eq rfl rfl

theorem inStepAt_peek {next next' : Option Token → Reader β}
    (h : InStepAt least s (next s.tokens.head?) (next' s.tokens.head?)) :
    InStepAt least s (peek >>= next) (peek >>= next') := by
  rw [State.tokens, List.head?_map] at h
  exact h.of_eq rfl rfl

theorem inStepAt_spanFrom {start : Span} {next next' : Span → Reader β}
    (h : ∀ span, InStepAt least s (next span) (next' span)) :
    InStepAt least s (spanFrom start >>= next) (spanFrom start >>= next') := (h _).of_eq rfl rfl

theorem inStepAt_atClose {close : Punctuation} {next next' : Bool → Reader β}
    (h : ∀ atEnd, InStepAt least s (next atEnd) (next' atEnd)) :
    InStepAt least s (atClose close >>= next) (atClose close >>= next') :=
  (h _).of_eq (by rw [run_bind, run_atClose]) (by rw [run_bind, run_atClose])

theorem inStepAt_newExpr {span : Span} {make : Site → Expr} : InStepAt 0 s (newExpr span make) (newExpr span make) :=
  ⟨rfl, List.suffix_rfl, fun _ _ => Nat.le_refl _⟩

theorem inStepAt_newType {span : Span} {make : Site → TypeExpr} : InStepAt 0 s (newType span make) (newType span make) :=
  ⟨rfl, List.suffix_rfl, fun _ _ => Nat.le_refl _⟩

/-! ## Steps that take one token, or none -/

theorem State.rest_advance_suffix (s : State) : s.advance.rest <:+ s.rest := by
  unfold State.advance
  split
  · exact List.suffix_rfl
  · rename_i t rest hrest
    rw [hrest]
    exact List.suffix_cons t rest

theorem State.head?_of_nil (h : s.rest = []) : s.tokens.head? = none := by rw [State.tokens, h, List.map_nil, List.head?_nil]

theorem State.length_advance {t : Token} (h : s.tokens.head? = some t) : s.advance.rest.length + 1 = s.rest.length := by
  rw [State.length_rest, State.length_rest, State.tokens_advance h, List.length_cons]

theorem inStepAt_advance {t : Token} {next next' : Unit → Reader β} (hhead : s.tokens.head? = some t)
    (h : ∀ u, u.rest.length + 1 ≤ s.rest.length → InStepAt (least - 1) u (next ()) (next' ())) :
    InStepAt least s (advance >>= next) (advance >>= next') := by
  have hadvance : InStepAt 1 s advance advance :=
    ⟨rfl, s.rest_advance_suffix, fun _ _ => Nat.le_of_eq (State.length_advance hhead)⟩
  exact hadvance.bind fun _ u hu => h u hu

theorem inStepAt_token? {token : Token} {yes yes' no no' : Reader β}
    (hyes : ∀ u, u.rest.length + 1 ≤ s.rest.length → InStepAt (least - 1) u yes yes') (hno : InStepAt least s no no') :
    InStepAt least s (do if ← token? token then yes else no) (do if ← token? token then yes' else no') := by
  by_cases hhead : s.tokens.head? = some token
  · have hadvance : InStepAt least s (advance >>= fun _ => yes) (advance >>= fun _ => yes') := inStepAt_advance hhead hyes
    refine hadvance.of_eq ?_ ?_ <;> rw [run_bind, run_token?_of_eq hhead] <;> rfl
  · refine hno.of_eq ?_ ?_ <;> rw [run_bind, run_token?_of_ne hhead] <;> rfl

theorem inStepAt_mark? {p : Punctuation} {yes yes' no no' : Reader β}
    (hyes : ∀ u, u.rest.length + 1 ≤ s.rest.length → InStepAt (least - 1) u yes yes') (hno : InStepAt least s no no') :
    InStepAt least s (do if ← mark? p then yes else no) (do if ← mark? p then yes' else no') := inStepAt_token? hyes hno

theorem inStep_token (token : Token) (s : State) : InStepAt 1 s (Reader.token token) (Reader.token token) :=
  inStepAt_token? (fun _ _ => inStepAt_pure) inStepAt_expected

theorem inStep_mark (p : Punctuation) (s : State) : InStepAt 1 s (mark p) (mark p) := inStep_token _ s

theorem inStep_keyword (k : Keyword) (s : State) : InStepAt 1 s (keyword k) (keyword k) := inStep_token _ s

theorem inStep_ident (s : State) : InStepAt 1 s ident ident := by
  apply inStepAt_peek
  split
  · exact inStepAt_here (inStepAt_advance ‹_› fun u _ => inStepAt_pure)
  · exact inStepAt_expected

theorem inStepAt_operator? {γ : Type} {read : Token → Option γ} {next next' : Option γ → Reader β}
    (hnone : InStepAt least s (next none) (next' none))
    (hsome : ∀ t op, s.tokens.head? = some t → InStepAt least s (next (some op)) (next' (some op))) :
    InStepAt least s (operator? read >>= next) (operator? read >>= next') := by
  have hnext : InStepAt least s (next (s.tokens.head?.bind read)) (next' (s.tokens.head?.bind read)) := by
    cases hop : s.tokens.head?.bind read with
    | none => exact hnone
    | some op =>
        obtain ⟨t, ht, -⟩ := Option.bind_eq_some_iff.mp hop
        exact hsome t op ht
  rw [State.tokens, List.head?_map] at hnext
  exact hnext.of_eq rfl rfl

/-! ## Readers that repeat themselves -/

/-- A turn of a reader that repeats itself is in step with one token more than what comes after it. -/
def TurnsInStep (limit least : Nat) (turn turn' : (ι → Reader α) → ι → Reader α) : Prop :=
  ∀ n, n < limit → ∀ f f', (∀ i, InStep n least (f i) (f' i)) → ∀ i, InStep (n + 1) least (turn f i) (turn' f' i)

theorem TurnsInStep.pred {turn turn' : (ι → Reader α) → ι → Reader α} (h : TurnsInStep (limit + 1) least turn turn') :
    TurnsInStep limit least turn turn' := fun n hn => h n (Nat.lt_succ_of_lt hn)

/-- Readers that take so many turns, but no more than there are tokens left. -/
structure Repeats (turn : (ι → Reader α) → ι → Reader α) (upTo : Nat → ι → Reader α) : Prop where
  succ : ∀ count i, upTo (count + 1) i = turn (upTo count) i
  /-- At the end of the tokens a reader that repeats itself is done. -/
  atEnd : ∀ f i s, s.rest = [] → turn f i s = upTo 0 i s

/-- The only solution of the equation `g = turn g`. With an empty turn somewhere there would be others. -/
def Ends (turn : (ι → Reader α) → ι → Reader α) (f : ι → Reader α) : Prop := ∀ g, g = turn g ↔ g = f

section

variable {turn turn' : (ι → Reader α) → ι → Reader α} {upTo upTo' : Nat → ι → Reader α}

theorem Repeats.run_of_nil (h : Repeats turn upTo) (hs : s.rest = []) (count : Nat) (i : ι) : upTo count i s = upTo 0 i s := by
  cases count with
  | zero => rfl
  | succ count => rw [h.succ, h.atEnd _ _ _ hs]

/-- As many turns as there are tokens are as good as any more. -/
theorem Repeats.inStep (h : Repeats turn upTo) (h' : Repeats turn' upTo') (hturn : TurnsInStep limit least turn turn')
    (hzero : ∀ i s, s.rest = [] → InStepAt least s (upTo 0 i) (upTo' 0 i)) {n : Nat} (hn : n ≤ limit) {count count' : Nat}
    (hcount : n ≤ count) (hcount' : n ≤ count') (i : ι) : InStep n least (upTo count i) (upTo' count' i) := by
  induction n generalizing count count' i with
  | zero =>
      intro s hs
      have hnil := List.length_eq_zero_iff.mp (Nat.le_zero.mp hs)
      exact (hzero i s hnil).of_eq (h.run_of_nil hnil count i) (h'.run_of_nil hnil count' i)
  | succ n ih =>
      obtain ⟨count, rfl⟩ := Nat.exists_eq_add_one.mpr (Nat.lt_of_lt_of_le n.succ_pos hcount)
      obtain ⟨count', rfl⟩ := Nat.exists_eq_add_one.mpr (Nat.lt_of_lt_of_le n.succ_pos hcount')
      rw [h.succ, h'.succ]
      exact hturn n hn _ _ (ih (by omega) (by omega) (by omega)) i

theorem Repeats.inStep_bounded (h : Repeats turn upTo) (h' : Repeats turn' upTo') (hturn : TurnsInStep limit least turn turn')
    (hzero : ∀ i s, s.rest = [] → InStepAt least s (upTo 0 i) (upTo' 0 i)) (i : ι) :
    InStep limit least (bounded (upTo · i)) (bounded (upTo' · i)) := fun s hs =>
  inStepAt_bounded (h.inStep h' hturn hzero hs (Nat.le_refl _) (Nat.le_refl _) i s (Nat.le_refl _))

/-- Reading without a bound comes to the same, and to nothing else. -/
theorem Repeats.ends (h : Repeats turn upTo) (hturn : ∀ limit, TurnsInStep limit least turn turn)
    (hzero : ∀ i s, s.rest = [] → InStepAt least s (upTo 0 i) (upTo 0 i)) : Ends turn fun i => bounded (upTo · i) := by
  intro g
  constructor
  · intro hg
    have hconstant : Repeats turn fun _ => g :=
      ⟨fun _ i => congrFun hg i, fun f i s hs => by rw [h.atEnd f i s hs, ← h.atEnd g i s hs, ← hg]⟩
    have hzero' (i s) (hs : s.rest = []) : InStepAt least s (upTo 0 i) (g i) := by
      refine (hzero i s hs).of_eq rfl ?_
      rw [← h.atEnd g i s hs, ← hg]
    funext i s
    exact (h.inStep_bounded hconstant (hturn _) hzero' i s (Nat.le_refl _)).same
  · rintro rfl
    funext i s
    have hagree (j) : InStep s.rest.length least (upTo s.rest.length j) (bounded (upTo · j)) := fun t ht =>
      (h.inStep h (hturn _) hzero (Nat.le_refl _) ht (Nat.le_refl _) j t (Nat.le_refl _)).of_eq rfl rfl
    have hmore := h.inStep h (hturn _) hzero (Nat.le_refl _) (Nat.le_succ _) (Nat.le_refl _) i s (Nat.le_refl _)
    have hturned := hturn _ _ (Nat.lt_succ_self _) _ _ hagree i s (Nat.le_succ _)
    rw [hturned.same, ← h.succ]
    exact hmore.same

end

/-- A reader that stands inside itself repeats itself without looking back. -/
theorem Ends.solution {turn : Reader α → Reader α} (h : Ends (fun f (_ : Unit) => turn (f ())) fun _ => r) (q : Reader α) :
    q = turn q ↔ q = r := by
  have hends := h fun _ => q
  constructor
  · exact fun hq => congrFun (hends.mp (funext fun _ => hq)) ()
  · exact fun hq => congrFun (hends.mpr (funext fun _ => hq)) ()

end Sable.Reader
