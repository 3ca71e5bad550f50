import Factbase.Proofs.Outcome
import Factbase.Proofs.Query.Steps

/-!
# Gathering results

A sink keeps the first of equal results, so what it holds after a loop is
what `gather` makes of all results in turn. `Gathers` compares a loop of the
machine with the results that are meant: it fails where they fail, and
else the sink has gathered them, unless it was full before.

Two things follow from the sink's forgetting. A loop may take an item twice
(`collect_congr`), and it may leave out items that would give what
earlier ones gave (`Gathers.visitFirsts`).
-/

namespace Factbase

/-! ## Lists without repetitions -/

section Gather

variable {α β ε : Type} [DecidableEq α] {acc xs ys : List α} {x : α}

/-- Append the items that are not there yet. -/
def gather (acc xs : List α) : List α :=
  xs.foldl (fun acc x => if x ∈ acc then acc else acc ++ [x]) acc

theorem gather_nil (acc : List α) : gather acc [] = acc := rfl

theorem gather_cons (acc : List α) (x : α) (xs : List α) :
    gather acc (x :: xs) = gather (if x ∈ acc then acc else acc ++ [x]) xs := rfl

theorem gather_append (acc xs ys : List α) : gather acc (xs ++ ys) = gather (gather acc xs) ys :=
  List.foldl_append

theorem mem_gather : x ∈ gather acc xs ↔ x ∈ acc ∨ x ∈ xs := by
  induction xs generalizing acc with
  | nil => simp [gather_nil]
  | cons y xs ih =>
      rw [gather_cons, ih, List.mem_cons]
      split
      · rename_i hy
        exact ⟨fun h => h.imp_right .inr, fun h => h.elim .inl fun h =>
          h.elim (fun hxy => .inl (hxy ▸ hy)) .inr⟩
      · rw [List.mem_append, List.mem_singleton, or_assoc]

theorem gather_of_subset (h : xs ⊆ acc) : gather acc xs = acc := by
  induction xs with
  | nil => rfl
  | cons x xs ih =>
      obtain ⟨hx, hxs⟩ := List.cons_subset.mp h
      rw [gather_cons, if_pos hx, ih hxs]

theorem prefix_gather (acc xs : List α) : acc <+: gather acc xs := by
  induction xs generalizing acc with
  | nil => exact List.prefix_rfl
  | cons x xs ih =>
      rw [gather_cons]
      refine List.IsPrefix.trans ?_ (ih _)
      split
      · exact List.prefix_rfl
      · exact List.prefix_append acc [x]

/-- Items that are there already are not looked for again. -/
theorem gather_eq_append (acc xs : List α) :
    gather acc xs = acc ++ (xs.filter (· ∉ acc)).eraseDups := by
  induction xs generalizing acc with
  | nil => simp [gather_nil]
  | cons x xs ih =>
      rw [gather_cons]
      by_cases hx : x ∈ acc
      · rw [if_pos hx, ih, List.filter_cons_of_neg (by simpa using hx)]
      · rw [if_neg hx, ih, List.filter_cons_of_pos (by simpa using hx), List.eraseDups_cons,
          List.filter_filter, List.append_assoc, List.singleton_append]
        congr 4
        funext y
        by_cases hy : y = x <;> simp [hy]

theorem eraseDups_eq_gather (xs : List α) : xs.eraseDups = gather [] xs := by
  rw [gather_eq_append, List.nil_append, List.filter_eq_self.mpr fun x _ => by simp]

end Gather

/-! ## Results in turn -/

section Collect

variable {α β γ ε : Type}

/-- What a function gives for items in turn, put together. -/
def collect (f : α → Except ε (List β)) (xs : List α) : Except ε (List β) :=
  List.flatten <$> xs.mapM f

theorem collect_cons (f : α → Except ε (List β)) (x : α) (xs : List α) :
    collect f (x :: xs) = do return (← f x) ++ (← collect f xs) := by
  rw [collect, collect, List.mapM_cons]
  cases f x with
  | error e => rfl
  | ok ys => cases xs.mapM f <;> rfl

/-- What is put together comes from some item. -/
theorem mem_collect {f : α → Except ε (List β)} {xs : List α} {ys : List β}
    (h : collect f xs = .ok ys) {y : β} : y ∈ ys ↔ ∃ x ∈ xs, ∃ zs, f x = .ok zs ∧ y ∈ zs := by
  induction xs generalizing ys with
  | nil =>
      cases h
      simp
  | cons x xs ih =>
      rw [collect_cons] at h
      obtain ⟨zs, hzs, h⟩ := Outcome.bind_ok_iff.mp h
      obtain ⟨rest, hrest, h⟩ := Outcome.bind_ok_iff.mp h
      cases h
      simp [ih hrest, hzs]

theorem ok_of_collect {f : α → Except ε (List β)} {xs : List α} {ys : List β}
    (h : collect f xs = .ok ys) {x : α} (hx : x ∈ xs) : ∃ zs, f x = .ok zs := by
  induction xs generalizing ys with
  | nil => cases hx
  | cons x' xs ih =>
      rw [collect_cons] at h
      obtain ⟨zs, hzs, h⟩ := Outcome.bind_ok_iff.mp h
      obtain ⟨rest, hrest, -⟩ := Outcome.bind_ok_iff.mp h
      rcases List.mem_cons.mp hx with rfl | hx
      · exact ⟨zs, hzs⟩
      · exact ih hrest hx

theorem collect_singleton (f : α → Except ε (List β)) (x : α) : collect f [x] = f x := by
  rw [collect_cons]
  cases f x with
  | error e => rfl
  | ok ys => exact congrArg Except.ok (List.append_nil ys)

/-- The results so far and those of the rest. -/
theorem collect_cons_ok {f : α → Except ε (List β)} {x : α} {ys : List β} (h : f x = .ok ys)
    (xs : List α) : collect f (x :: xs) = (ys ++ ·) <$> collect f xs := by
  rw [collect_cons, h]
  cases collect f xs <;> rfl

theorem collect_cons_error {f : α → Except ε (List β)} {x : α} {e : ε} (h : f x = .error e)
    (xs : List α) : collect f (x :: xs) = .error e := by
  rw [collect_cons, h]
  rfl

theorem map_collect (g : β → γ) (f : α → Except ε (List β)) (xs : List α) :
    List.map g <$> collect f xs = collect (fun x => List.map g <$> f x) xs := by
  induction xs with
  | nil => rfl
  | cons x xs ih =>
      rw [collect_cons, collect_cons, ← ih]
      cases f x with
      | error e => rfl
      | ok ys =>
          cases collect f xs with
          | error e => rfl
          | ok rest => exact congrArg Except.ok List.map_append

theorem filterMapM_eq_collect (f : α → Except ε (Option β)) (xs : List α) :
    xs.filterMapM f = collect (fun x => Option.toList <$> f x) xs := by
  induction xs with
  | nil => rfl
  | cons x xs ih =>
      rw [List.filterMapM_cons, collect_cons, ← ih]
      cases f x with
      | error e => rfl
      | ok found => cases found <;> cases List.filterMapM f xs <;> rfl

theorem collect_map (f : β → Except ε (List γ)) (g : α → β) (xs : List α) :
    collect f (xs.map g) = collect (fun x => f (g x)) xs := by
  rw [collect, collect, List.mapM_map]
  rfl

theorem collect_congr_left {f g : α → Except ε (List β)} {xs : List α}
    (h : ∀ x ∈ xs, f x = g x) : collect f xs = collect g xs := by
  induction xs with
  | nil => rfl
  | cons x xs ih =>
      obtain ⟨hx, hxs⟩ := List.forall_mem_cons.mp h
      rw [collect_cons, collect_cons, hx, ih hxs]

variable {f : α → Except ε (List β)} {acc : List β}

/-- An item that gives nothing new. -/
def Idle (f : α → Except ε (List β)) (acc : List β) (x : α) : Prop := ∃ ys, f x = .ok ys ∧ ys ⊆ acc

theorem Idle.mono {x : α} (h : Idle f acc x) {acc' : List β} (hsub : acc ⊆ acc') : Idle f acc' x := by
  obtain ⟨ys, hys, hys'⟩ := h
  exact ⟨ys, hys, fun _ hy => hsub (hys' hy)⟩

variable [DecidableEq β]

theorem gather_collect_idle {x : α} (h : Idle f acc x) (xs : List α) :
    gather acc <$> collect f (x :: xs) = gather acc <$> collect f xs := by
  obtain ⟨ys, hys, hsub⟩ := h
  rw [collect_cons_ok hys]
  cases collect f xs with
  | error e => rfl
  | ok rest =>
      show Except.ok (gather acc (ys ++ rest)) = _
      rw [gather_append, gather_of_subset hsub]
      rfl

theorem gather_collect_all_idle {xs : List α} (h : ∀ x ∈ xs, Idle f acc x) :
    gather acc <$> collect f xs = .ok acc := by
  induction xs with
  | nil => rfl
  | cons x xs ih =>
      obtain ⟨hx, hxs⟩ := List.forall_mem_cons.mp h
      rw [gather_collect_idle hx, ih hxs]

/-- Two lists in ascending order give the same results where they have the same items, but
for items that give nothing new. -/
theorem gather_collect_congr {num : α → Nat} (hinj : ∀ x y, num x = num y → x = y) :
    (xs xs' : List α) → (acc : List β) → xs.Pairwise (num · ≤ num ·) →
    xs'.Pairwise (num · ≤ num ·) → (∀ x ∈ xs, x ∉ xs' → Idle f acc x) →
    (∀ x ∈ xs', x ∉ xs → Idle f acc x) →
    gather acc <$> collect f xs = gather acc <$> collect f xs'
  | [], xs', acc, _, _, _, h' => by
      rw [gather_collect_all_idle fun x hx => h' x hx (List.not_mem_nil)]
      rfl
  | x :: xs, [], acc, _, _, h, _ => by
      rw [gather_collect_all_idle fun y hy => h y hy (List.not_mem_nil)]
      rfl
  | x :: xs, x' :: xs', acc, hxs, hxs', h, h' => by
      obtain ⟨hle, hsorted⟩ := List.pairwise_cons.mp hxs
      obtain ⟨hle', hsorted'⟩ := List.pairwise_cons.mp hxs'
      rcases Nat.lt_trichotomy (num x) (num x') with hlt | heq | hlt
      · -- the first item comes before all of the other list
        have hnot : x ∉ x' :: xs' := by
          rintro (_ | ⟨_, hx⟩)
          · exact Nat.lt_irrefl _ hlt
          · exact absurd (hle' x hx) (Nat.not_le_of_gt hlt)
        rw [gather_collect_idle (h x (List.mem_cons_self ..) hnot)]
        refine gather_collect_congr hinj xs (x' :: xs') acc hsorted hxs'
          (fun y hy => h y (List.mem_cons_of_mem x hy)) fun y hy hn => h' y hy ?_
        rintro (_ | ⟨_, hy'⟩)
        · exact hnot hy
        · exact hn hy'
      · obtain rfl := hinj x x' heq
        cases hf : f x with
        | error e => rw [collect_cons_error hf, collect_cons_error hf]
        | ok ys =>
            have hidle : Idle f (gather acc ys) x :=
              ⟨ys, hf, fun y hy => mem_gather.mpr (.inr hy)⟩
            have hmono : acc ⊆ gather acc ys := fun y hy => mem_gather.mpr (.inl hy)
            have hrest := gather_collect_congr hinj xs xs' (gather acc ys) hsorted hsorted'
              (fun y hy hn => ?_) (fun y hy hn => ?_)
            · rw [collect_cons_ok hf, collect_cons_ok hf]
              simpa only [Functor.map_map, gather_append] using hrest
            · by_cases hyx : y = x
              · exact hyx ▸ hidle
              · exact (h y (List.mem_cons_of_mem x hy) (by simp [hyx, hn])).mono hmono
            · by_cases hyx : y = x
              · exact hyx ▸ hidle
              · exact (h' y (List.mem_cons_of_mem x hy) (by simp [hyx, hn])).mono hmono
      · have hnot : x' ∉ x :: xs := by
          rintro (_ | ⟨_, hx⟩)
          · exact Nat.lt_irrefl _ hlt
          · exact absurd (hle x' hx) (Nat.not_le_of_gt hlt)
        rw [gather_collect_idle (h' x' (List.mem_cons_self ..) hnot)]
        refine gather_collect_congr hinj (x :: xs) xs' acc hxs hsorted' (fun y hy hn => h y hy ?_)
          (fun y hy => h' y (List.mem_cons_of_mem x' hy))
        rintro (_ | ⟨_, hy'⟩)
        · exact hnot hy
        · exact hn hy'
termination_by xs xs' => xs.length + xs'.length

end Collect

/-! ## Loops of the machine -/

section Loops

variable {α β φ κ κ' : Type} [DecidableEq κ] {w : World} {inv : Sink → Prop} {obs : Sink → List κ}

theorem run_visitAll_cons (step : α → Sink → Run Sink) (x : α) (xs : List α) (sink : Sink)
    (e : Evaluation) : (visitAll step (x :: xs) sink).run e = (step x sink).run e >>= fun p =>
      if p.1.truncated then .ok p else (visitAll step xs p.1).run p.2 := by
  rw [visitAll]
  show ((step x sink).run e >>= _) = _
  refine bind_congr fun p => ?_
  cases h : p.1.truncated <;> simp [h] <;> rfl

theorem run_visitAll_singleton (step : α → Sink → Run Sink) (x : α) (sink : Sink) (e : Evaluation) :
    (visitAll step [x] sink).run e = (step x sink).run e := by
  rw [run_visitAll_cons]
  refine Eq.trans (bind_congr fun p => ?_) (bind_pure _)
  exact ite_self _

/-- From a sink and an evaluation the machine fails where the results fail, and else has the
sink gather them, unless the sink is full. `inv` is what is known of sinks. -/
def GathersAt (w : World) (inv : Sink → Prop) (obs : Sink → List κ) (sink : Sink) (e : Evaluation)
    (m : Run Sink) (results : Except Error (List κ)) : Prop :=
  (∃ x, results = .error x ∧ m.run e = .error x) ∨
  ∃ sink' e', m.run e = .ok (sink', e') ∧ e'.world = w ∧ inv sink' ∧
    ((∃ ks, results = .ok ks ∧ obs sink' = gather (obs sink) ks) ∨ sink'.truncated = true)

/-- The same for all sinks, while the derived facts are those of a world. -/
def Gathers (w : World) (inv : Sink → Prop) (obs : Sink → List κ) (m : Sink → Run Sink)
    (results : Except Error (List κ)) : Prop :=
  ∀ sink e, e.world = w → inv sink → GathersAt w inv obs sink e (m sink) results

namespace GathersAt

variable {sink : Sink} {e : Evaluation}

theorem nothing (he : e.world = w) (hinv : inv sink) :
    GathersAt w inv obs sink e (pure sink) (.ok []) :=
  .inr ⟨sink, e, rfl, he, hinv, .inl ⟨[], rfl, rfl⟩⟩

theorem of_run {m m' : Run Sink} {results : Except Error (List κ)}
    (h : GathersAt w inv obs sink e m results) (hrun : m'.run e = m.run e) :
    GathersAt w inv obs sink e m' results := by
  unfold GathersAt at *
  rwa [hrun]

/-- Results may be given in another way, as long as they are gathered alike. -/
theorem congr {m : Run Sink} {results results' : Except Error (List κ)}
    (h : GathersAt w inv obs sink e m results)
    (heq : gather (obs sink) <$> results = gather (obs sink) <$> results') :
    GathersAt w inv obs sink e m results' := by
  rcases h with ⟨x, rfl, hrun⟩ | ⟨sink', e', hrun, he', hinv', hobs⟩
  · cases results' with
    | error x' =>
        cases heq
        exact .inl ⟨x, rfl, hrun⟩
    | ok ks => cases heq
  · refine .inr ⟨sink', e', hrun, he', hinv', hobs.imp_left ?_⟩
    rintro ⟨ks, rfl, hgather⟩
    cases results' with
    | error x' => cases heq
    | ok ks' => exact ⟨ks', rfl, hgather.trans (Except.ok.inj heq)⟩

/-- A first item, and then the others, unless the first one has filled the sink. -/
theorem cons {step : α → Sink → Run Sink} {x : α} {xs : List α}
    {first rest : Except Error (List κ)} (hx : GathersAt w inv obs sink e (step x sink) first)
    (hxs : ∀ sink' e' ks, (step x sink).run e = .ok (sink', e') → e'.world = w → inv sink' →
      sink'.truncated ≠ true → first = .ok ks → obs sink' = gather (obs sink) ks →
      GathersAt w inv obs sink' e' (visitAll step xs sink') rest) :
    GathersAt w inv obs sink e (visitAll step (x :: xs) sink)
      (do return (← first) ++ (← rest)) := by
  rcases hx with ⟨y, rfl, hrun⟩ | ⟨sink', e', hrun, he', hinv', hobs⟩
  · refine .inl ⟨y, rfl, ?_⟩
    rw [run_visitAll_cons, hrun]
    rfl
  · have hvisit : (visitAll step (x :: xs) sink).run e =
        if sink'.truncated then .ok (sink', e') else (visitAll step xs sink').run e' := by
      rw [run_visitAll_cons, hrun]
      rfl
    by_cases hfull : sink'.truncated = true
    · exact .inr ⟨sink', e', by rw [hvisit, if_pos hfull], he', hinv', .inr hfull⟩
    · rw [if_neg hfull] at hvisit
      obtain ⟨ks, hfirst, hgather⟩ := hobs.resolve_right hfull
      subst hfirst
      rcases hxs sink' e' ks hrun he' hinv' hfull rfl hgather with ⟨y, rfl, hrun'⟩ |
        ⟨sink'', e'', hrun', he'', hinv'', hobs'⟩
      · exact .inl ⟨y, rfl, hvisit.trans hrun'⟩
      · refine .inr ⟨sink'', e'', hvisit.trans hrun', he'', hinv'', hobs'.imp_left ?_⟩
        rintro ⟨ks', rfl, hgather'⟩
        exact ⟨ks ++ ks', rfl, by rw [hgather', hgather, gather_append]⟩

/-- The machine need not do what would give nothing new. -/
theorem idle {m : Run Sink} {first rest : Except Error (List κ)}
    (h : GathersAt w inv obs sink e m rest) {ks : List κ} (hfirst : first = .ok ks)
    (hks : ks ⊆ obs sink) :
    GathersAt w inv obs sink e m (do return (← first) ++ (← rest)) := by
  subst hfirst
  refine h.congr ?_
  cases rest with
  | error x => rfl
  | ok ks' =>
      refine congrArg Except.ok ?_
      rw [gather_append, gather_of_subset hks]

end GathersAt

namespace Gathers

theorem congr {m : Sink → Run Sink} {results results' : Except Error (List κ)}
    (h : Gathers w inv obs m results)
    (heq : ∀ acc, gather acc <$> results = gather acc <$> results') :
    Gathers w inv obs m results' :=
  fun sink e he hinv => (h sink e he hinv).congr (heq (obs sink))

/-- A step that may give up, and what follows it. -/
theorem of_shows {P : φ → β → Prop} {m : Step φ} {s : Attempt β} {finish : φ → Sink → Run Sink}
    {key : β → κ} (h : Shows w P m s)
    (hfinish : ∀ f b, P f b → Gathers w inv obs (finish f) (.ok [key b])) :
    Gathers w inv obs (m.into finish) ((fun b => (b.map key).toList) <$> s.run) := by
  intro sink e he hinv
  have hm := h e he
  cases hs : s.run with
  | error x =>
      rw [hs] at hm
      refine .inl ⟨x, rfl, ?_⟩
      show (m.run e >>= _) = _
      rw [hm]
      rfl
  | ok found =>
      rw [hs] at hm
      obtain ⟨a, e', hrun, he', hrel⟩ := hm
      cases hrel with
      | none =>
          have hinto : (m.into finish sink).run e = .ok (sink, e') := by
            show (m.run e >>= _) = _
            rw [hrun]
            rfl
          exact .inr ⟨sink, e', hinto, he', hinv, .inl ⟨[], rfl, rfl⟩⟩
      | @some f b hab =>
          have hinto : (m.into finish sink).run e = (finish f sink).run e' := by
            show (m.run e >>= _) = _
            rw [hrun]
            rfl
          unfold GathersAt
          rw [hinto]
          exact hfinish f b hab sink e' he' hinv

/-- A loop gathers what its items give in turn. -/
theorem visitAll {step : α → Sink → Run Sink} {s : α → Except Error (List κ)} {xs : List α}
    (h : ∀ x ∈ xs, Gathers w inv obs (step x) (s x)) :
    Gathers w inv obs (visitAll step xs) (collect s xs) := by
  induction xs with
  | nil => exact fun sink e he hinv => .nothing he hinv
  | cons x xs ih =>
      obtain ⟨hx, hxs⟩ := List.forall_mem_cons.mp h
      intro sink e he hinv
      rw [collect_cons]
      exact (hx sink e he hinv).cons fun sink' e' _ _ he' hinv' _ _ _ => ih hxs sink' e' he' hinv'

variable [DecidableEq κ'] {step : α → Sink → Run Sink} {s : β → Except Error (List κ)}
  {keyOf : α → κ'} {keyOf' : β → κ'} {ys : List β}

/-- While the items left are those of `ys` whose keys were not seen. -/
theorem visitUnseen (seen : List κ') {xs : List α} {sink : Sink} {e : Evaluation}
    (h : ∀ x ∈ xs, ∀ y ∈ ys, keyOf x = keyOf' y → Gathers w inv obs (step x) (s y))
    (hkeys : gather seen (ys.map keyOf') = seen ++ xs.map keyOf)
    (hidle : ∀ y ∈ ys, keyOf' y ∈ seen → Idle s (obs sink) y) (he : e.world = w)
    (hinv : inv sink) :
    GathersAt w inv obs sink e (Factbase.visitAll step xs sink) (collect s ys) := by
  induction ys generalizing xs seen sink e with
  | nil =>
      have hnil : xs = [] := by simpa [gather_nil] using hkeys
      subst hnil
      exact .nothing he hinv
  | cons y ys ih =>
      rw [List.map_cons, gather_cons] at hkeys
      rw [collect_cons]
      have hrest : ∀ x ∈ xs, ∀ y' ∈ ys, keyOf x = keyOf' y' → Gathers w inv obs (step x) (s y') :=
        fun x hx y' hy' => h x hx y' (List.mem_cons_of_mem y hy')
      by_cases hseen : keyOf' y ∈ seen
      · rw [if_pos hseen] at hkeys
        obtain ⟨ks, hs, hsub⟩ := hidle y (List.mem_cons_self ..) hseen
        exact (ih seen hrest hkeys (fun y' hy' => hidle y' (List.mem_cons_of_mem y hy')) he hinv).idle
          hs hsub
      · rw [if_neg hseen] at hkeys
        -- the key of the first item left is the first one that was not seen
        obtain ⟨more, hmore⟩ := prefix_gather (seen ++ [keyOf' y]) (ys.map keyOf')
        rw [← hmore, List.append_assoc, List.singleton_append] at hkeys
        cases xs with
        | nil => simp at hkeys
        | cons x xs =>
            obtain ⟨hx, rfl⟩ := List.cons.inj (List.append_cancel_left hkeys)
            have hstep {y' : β} (hy' : y' ∈ y :: ys) (hkey : keyOf' y' = keyOf' y) :
                Gathers w inv obs (step x) (s y') :=
              h x (List.mem_cons_self ..) y' hy' (hx.symm.trans hkey.symm)
            refine (hstep (List.mem_cons_self ..) rfl sink e he hinv).cons ?_
            intro sink' e' ks hrun he' hinv' hfull hs hgather
            refine ih (seen ++ [keyOf' y]) (fun x' hx' => hrest x' (List.mem_cons_of_mem x hx'))
              hmore.symm ?_ he' hinv'
            · intro y' hy' hmem
              rcases List.mem_append.mp hmem with hmem | hmem
              · refine (hidle y' (List.mem_cons_of_mem y hy') hmem).mono ?_
                rw [hgather]
                exact fun k hk => mem_gather.mpr (.inl hk)
              · -- the step that was just taken gives what is meant for `y'` as well
                have hsame := hstep (List.mem_cons_of_mem y hy') (List.mem_singleton.mp hmem) sink e he
                  hinv
                rcases hsame with ⟨z, -, hrun'⟩ | ⟨_, _, hrun', -, -, hobs'⟩
                · cases hrun.symm.trans hrun'
                · cases hrun.symm.trans hrun'
                  obtain ⟨ks', hs', hgather'⟩ := hobs'.resolve_right hfull
                  refine ⟨ks', hs', fun k hk => ?_⟩
                  rw [hgather']
                  exact mem_gather.mpr (.inr hk)

/-- A loop may leave out the items whose keys have come before, where what the machine does
depends on the key only. -/
theorem visitFirsts {xs : List α} (hkeys : xs.map keyOf = gather [] (ys.map keyOf'))
    (h : ∀ x ∈ xs, ∀ y ∈ ys, keyOf x = keyOf' y → Gathers w inv obs (step x) (s y)) :
    Gathers w inv obs (Factbase.visitAll step xs) (collect s ys) := by
  intro sink e he hinv
  refine visitUnseen [] h ?_ (fun _ _ hseen => absurd hseen List.not_mem_nil) he hinv
  rw [← hkeys, List.nil_append]

end Gathers

end Loops

end Factbase
