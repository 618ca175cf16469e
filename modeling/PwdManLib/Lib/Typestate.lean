import PwdManLib.Lib.Process

/-!
# Handles that are acquired, used and released

A run is seen here through its log: which handles it acquired, used and released, in order. The log is
`Sound` when nothing happens to a handle behind its release, and `Closed` when everything acquired has
been released exactly once. A run `Respects` its handles when its log is sound and, once it has
returned, closed. A sound log never releases twice (`Sound.count_release_le_one`), so of a sound log it
is enough to know that what it acquires it releases (`respects_iff_of_done`).

In a process that dies where something is released a second time, a run goes on up to there (`aborting`).

Behind runs that have handles of their own, that of a run is left open exactly when the run has left it open and
all in front of it have returned (`leftOpen_history_iff`).
-/

/-- What happens to a handle. -/
inductive Event (H : Type) where
  | acquire (h : H)
  | use (h : H)
  | release (h : H)
  deriving DecidableEq, Repr

namespace Event

variable {H α : Type}

/-- The handle something happens to. -/
def handle : Event H → H
  | acquire h => h
  | use h => h
  | release h => h

@[simp] theorem handle_acquire (h : H) : (acquire h).handle = h := rfl

@[simp] theorem handle_use (h : H) : (use h).handle = h := rfl

@[simp] theorem handle_release (h : H) : (release h).handle = h := rfl

/-! ## Nothing behind a release -/

/-- Nothing happens to a handle behind its release. -/
def Sound (es : List (Event H)) : Prop := es.Pairwise fun e e' => e ≠ release e'.handle

@[simp] theorem sound_nil : Sound ([] : List (Event H)) := List.Pairwise.nil

@[simp] theorem sound_cons {e : Event H} {es : List (Event H)} :
    Sound (e :: es) ↔ (∀ e' ∈ es, e ≠ release e'.handle) ∧ Sound es :=
  List.pairwise_cons

theorem sound_append {es es' : List (Event H)} :
    Sound (es ++ es') ↔ Sound es ∧ Sound es' ∧ ∀ e' ∈ es', release e'.handle ∉ es := by
  rw [Sound, List.pairwise_append]
  refine and_congr_right fun _ => and_congr_right fun _ => ?_
  constructor
  · intro h e' he' hmem
    exact h _ hmem e' he' rfl
  · intro h e he e' he' heq
    exact h e' he' (heq ▸ he)

theorem sound_of_no_release {es : List (Event H)} (h : ∀ e ∈ es, e ≠ release e.handle) : Sound es := by
  rw [Sound, List.pairwise_iff_forall_sublist]
  intro e e' hsub heq
  have hmem : e ∈ es := hsub.subset (by simp)
  exact h e hmem (by rw [heq, handle_release])

/-- **A sound log releases nothing twice.** -/
theorem Sound.count_release_le_one [DecidableEq H] {es : List (Event H)} (hes : Sound es) (h : H) :
    es.count (release h) ≤ 1 := by
  induction es with
  | nil => simp
  | cons e es ih =>
    obtain ⟨hhead, htail⟩ := sound_cons.mp hes
    by_cases he : e = release h
    · have hnot : release h ∉ es := fun hmem => hhead _ hmem he
      have hzero := List.count_eq_zero_of_not_mem hnot
      rw [he, List.count_cons_self]
      omega
    · rw [List.count_cons_of_ne he]
      exact ih htail

/-! ## Everything released -/

/-- What has been acquired has been released. -/
def Released (es : List (Event H)) : Prop := ∀ h, acquire h ∈ es → release h ∈ es

theorem Released.append {es es' : List (Event H)} (h : Released es) (h' : Released es') :
    Released (es ++ es') := by
  intro x hx
  rcases List.mem_append.mp hx with hx | hx
  · exact List.mem_append_left _ (h x hx)
  · exact List.mem_append_right _ (h' x hx)

/-- The handle has been acquired and not released. -/
def LeftOpen (es : List (Event H)) (h : H) : Prop := acquire h ∈ es ∧ release h ∉ es

theorem Released.not_leftOpen {es : List (Event H)} (hes : Released es) (h : H) : ¬ LeftOpen es h := by
  intro hopen
  exact hopen.2 (hes h hopen.1)

variable [DecidableEq H]

/-- What has been acquired has been released, exactly once. -/
def Closed (es : List (Event H)) : Prop := ∀ h, acquire h ∈ es → es.count (release h) = 1

theorem closed_iff {es : List (Event H)} (hes : Sound es) : Closed es ↔ Released es := by
  refine forall_congr' fun h => imp_congr_right fun _ => ?_
  have hle := hes.count_release_le_one h
  rw [← List.count_pos_iff]
  omega

/-- The run touches nothing it has released and, by the time it returns, has released everything it
acquired exactly once. -/
def Respects (t : Trace (Event H) α) : Prop := Sound t.sent ∧ ((∃ a, t.next = .done a) → Closed t.sent)

theorem respects_iff_of_done {t : Trace (Event H) α} {a : α} (ht : t.next = .done a) :
    Respects t ↔ Sound t.sent ∧ Released t.sent := by
  refine and_congr_right fun hsound => ?_
  rw [closed_iff hsound]
  exact ⟨fun h => h ⟨a, ht⟩, fun h _ => h⟩

theorem respects_iff_of_fault {t : Trace (Event H) α} (ht : t.next = .fault) :
    Respects t ↔ Sound t.sent := by
  apply and_iff_left
  intro h
  obtain ⟨a, ha⟩ := h
  rw [ht] at ha
  cases ha

theorem respects_discard {t : Trace (Event H) α} :
    Respects (t >>= fun _ => (pure () : Trace (Event H) Unit)) ↔ Respects t := by
  have hsent : (t >>= fun _ => (pure () : Trace (Event H) Unit)).sent = t.sent := by
    rw [bind_pure_comp, Trace.sent_map]
  have hnext : (∃ u, (t >>= fun _ => (pure () : Trace (Event H) Unit)).next = .done u) ↔
      ∃ a, t.next = .done a := by
    rw [Trace.next_bind]
    cases t.next <;> simp
  rw [Respects, Respects, hsent, hnext]

/-! ## Released twice -/

/-- Nothing is released twice. -/
def ReleasedOnce (es : List (Event H)) : Prop := ∀ h, es.count (release h) ≤ 1

theorem Respects.releasedOnce {t : Trace (Event H) α} (h : Respects t) : ReleasedOnce t.sent :=
  h.1.count_release_le_one

theorem releasedOnce_of_notMem {es : List (Event H)} (h : ∀ x, release x ∉ es) : ReleasedOnce es := by
  intro x
  rw [List.count_eq_zero_of_not_mem (h x)]
  exact Nat.zero_le 1

theorem ReleasedOnce.append {es es' : List (Event H)} (h : ReleasedOnce es) (h' : ReleasedOnce es')
    (hdisjoint : ∀ x, release x ∈ es → release x ∉ es') : ReleasedOnce (es ++ es') := by
  intro x
  rw [List.count_append]
  by_cases hx : release x ∈ es
  · rw [List.count_eq_zero_of_not_mem (hdisjoint x hx)]
    exact h x
  · rw [List.count_eq_zero_of_not_mem hx, Nat.zero_add]
    exact h' x

/-- The log up to the release of something that is released a second time, if there is one; `gone` has been
released in front of it. -/
def untilTwice (gone : List H) : List (Event H) → Option (List (Event H))
  | [] => none
  | acquire h :: es => (untilTwice gone es).map (acquire h :: ·)
  | use h :: es => (untilTwice gone es).map (use h :: ·)
  | release h :: es => if h ∈ gone then some [] else (untilTwice (h :: gone) es).map (release h :: ·)

/-- A run in a process that dies where something is released a second time. -/
def aborting (t : Trace (Event H) α) : Trace (Event H) α :=
  match untilTwice [] t.sent with
  | none => t
  | some log => { sent := log, next := .fault }

/-- What is gone is not released, and the rest once at most. -/
def OnceBehind (gone : List H) (es : List (Event H)) : Prop :=
  ∀ x, es.count (release x) ≤ if x ∈ gone then 0 else 1

theorem OnceBehind.of_cons {gone : List H} {e : Event H} {es : List (Event H)} (h : OnceBehind gone (e :: es)) :
    OnceBehind gone es :=
  fun x => Nat.le_trans List.count_le_count_cons (h x)

theorem OnceBehind.of_release {gone : List H} {y : H} {es : List (Event H)}
    (h : OnceBehind gone (release y :: es)) : y ∉ gone ∧ OnceBehind (y :: gone) es := by
  have hy := h y
  rw [List.count_cons_self] at hy
  have hnew : y ∉ gone := by
    intro hmem
    rw [if_pos hmem] at hy
    omega
  refine ⟨hnew, fun x => ?_⟩
  by_cases hx : x = y
  · rw [if_neg hnew] at hy
    rw [hx, if_pos List.mem_cons_self]
    omega
  · have hrest := h.of_cons x
    simpa [hx] using hrest

theorem untilTwice_append {gone : List H} {front : List (Event H)} (h : OnceBehind gone front)
    (back : List (Event H)) :
    ∃ gone', (∀ x, x ∈ gone' ↔ x ∈ gone ∨ release x ∈ front) ∧
      untilTwice gone (front ++ back) = (untilTwice gone' back).map (front ++ ·) := by
  induction front generalizing gone with
  | nil => exact ⟨gone, by simp, by simp⟩
  | cons e front ih =>
    cases e with
    | acquire y =>
      obtain ⟨gone', hgone, heq⟩ := ih h.of_cons
      exact ⟨gone', by simpa using hgone, by simp [untilTwice, heq, Function.comp_def]⟩
    | use y =>
      obtain ⟨gone', hgone, heq⟩ := ih h.of_cons
      exact ⟨gone', by simpa using hgone, by simp [untilTwice, heq, Function.comp_def]⟩
    | release y =>
      obtain ⟨hnew, hfront⟩ := h.of_release
      obtain ⟨gone', hgone, heq⟩ := ih hfront
      refine ⟨gone', fun x => ?_, by simp [untilTwice, hnew, heq, Function.comp_def]⟩
      rw [hgone, List.mem_cons, List.mem_cons, release.injEq, or_assoc]
      exact or_left_comm

theorem ReleasedOnce.onceBehind {es : List (Event H)} (h : ReleasedOnce es) : OnceBehind [] es := by
  intro x
  simpa using h x

theorem aborting_of_once {t : Trace (Event H) α} (h : ReleasedOnce t.sent) : aborting t = t := by
  obtain ⟨gone, -, heq⟩ := untilTwice_append h.onceBehind []
  rw [List.append_nil] at heq
  rw [aborting, heq]
  rfl

theorem aborting_of_twice {t : Trace (Event H) α} {front back : List (Event H)} {x : H}
    (ht : t.sent = front ++ release x :: back) (hfront : ReleasedOnce front) (hx : release x ∈ front) :
    aborting t = { sent := front, next := .fault } := by
  obtain ⟨gone, hgone, heq⟩ := untilTwice_append hfront.onceBehind (release x :: back)
  have hmem : x ∈ gone := (hgone x).mpr (.inr hx)
  rw [aborting, ht, heq, untilTwice, if_pos hmem, Option.map_some, List.append_nil]

theorem aborting_discard (t : Trace (Event H) α) :
    aborting (t >>= fun _ => (pure () : Trace (Event H) Unit)) = aborting t >>= fun _ => pure () := by
  have hsent : (t >>= fun _ => (pure () : Trace (Event H) Unit)).sent = t.sent := by
    rw [bind_pure_comp, Trace.sent_map]
  rw [aborting, aborting, hsent]
  cases untilTwice [] t.sent <;> rfl

/-! ## Run after run -/

/-- An event of the run with this number. -/
def tag (i : Nat) : Event H → Event (Nat × H)
  | acquire h => acquire (i, h)
  | use h => use (i, h)
  | release h => release (i, h)

omit [DecidableEq H] in
theorem tag_inj {i j : Nat} {e e' : Event H} : tag i e = tag j e' ↔ i = j ∧ e = e' := by
  cases e <;> cases e' <;> simp [tag]

/-- A run with a number, as a process. -/
def tagged (i : Nat) (t : Trace (Event H) Unit) : Process (Event (Nat × H)) Unit := .lift (t.mapSent (tag i))

/-- Runs one behind the other, each with handles of its own, up to the first that does not return. -/
def history (ts : List (Trace (Event H) Unit)) : Process (Event (Nat × H)) Unit :=
  Process.serial (ts.mapIdx fun i t _ => tagged i t) 0

section history

variable {ts : List (Trace (Event H) Unit)}

omit [DecidableEq H]

theorem returns_tagged_iff {i : Nat} {t : Trace (Event H) Unit} : (tagged i t).Returns () ↔ t.next = .done () :=
  Process.returns_lift_iff

theorem tag_mem_log_tagged_iff {i j : Nat} {t : Trace (Event H) Unit} {e : Event H} :
    tag i e ∈ (tagged j t).log ↔ i = j ∧ e ∈ t.sent := by
  rw [tagged, Process.log_lift, Trace.sent_mapSent, List.mem_map]
  refine ⟨fun h => ?_, fun h => ?_⟩
  · obtain ⟨e', he', heq⟩ := h
    obtain ⟨rfl, rfl⟩ := tag_inj.mp heq
    exact ⟨rfl, he'⟩
  · obtain ⟨rfl, he⟩ := h
    exact ⟨e, he, rfl⟩

/-- All runs in front of the one with this number return. -/
def AllReturn (ts : List (Trace (Event H) Unit)) (i : Nat) : Prop := ∀ j < i, ∀ t, ts[j]? = some t → t.next = .done ()

theorem reached_tagged_iff {i : Nat} :
    Process.Reached (ts.mapIdx fun i t _ => tagged i t) i ↔ AllReturn ts i := by
  constructor
  · intro h j hj t ht
    obtain ⟨_, hret⟩ := h j hj (fun _ => tagged j t) (by rw [List.getElem?_mapIdx, ht]; rfl)
    exact returns_tagged_iff.mp hret
  · intro h j hj job hjob
    rw [List.getElem?_mapIdx, Option.map_eq_some_iff] at hjob
    obtain ⟨t, ht, rfl⟩ := hjob
    exact ⟨0, returns_tagged_iff.mpr (h j hj t ht)⟩

theorem tag_mem_history_iff {i : Nat} {e : Event H} :
    tag i e ∈ (history ts).log ↔ ∃ t, ts[i]? = some t ∧ AllReturn ts i ∧ e ∈ t.sent := by
  have hconst (n : Nat) : Process.serial (ts.mapIdx fun i t _ => tagged i t) n = history ts := by
    refine Process.serial_const ?_ n
    intro job hjob m
    obtain ⟨j, hj, rfl⟩ := List.mem_mapIdx.mp hjob
    rfl
  have hgrows : ∀ job ∈ ts.mapIdx fun i t _ => tagged i t, Process.Grows job := by
    intro job hjob
    obtain ⟨j, hj, rfl⟩ := List.mem_mapIdx.mp hjob
    exact Process.grows_const _
  have hserial := Process.mem_log_serial_iff hgrows (e := tag i e)
  simp only [hconst, exists_const, reached_tagged_iff, List.getElem?_mapIdx, Option.map_eq_some_iff] at hserial
  rw [hserial]
  refine ⟨fun h => ?_, fun h => ?_⟩
  · obtain ⟨j, job, ⟨t, ht, rfl⟩, hreturn, hmem⟩ := h
    obtain ⟨rfl, he⟩ := tag_mem_log_tagged_iff.mp hmem.choose_spec
    exact ⟨t, ht, hreturn, he⟩
  · obtain ⟨t, ht, hreturn, he⟩ := h
    exact ⟨i, _, ⟨t, ht, rfl⟩, hreturn, 0, tag_mem_log_tagged_iff.mpr ⟨rfl, he⟩⟩

theorem leftOpen_history_iff {i : Nat} {h : H} :
    LeftOpen (history ts).log (i, h) ↔ ∃ t, ts[i]? = some t ∧ AllReturn ts i ∧ LeftOpen t.sent h := by
  have hacquire : acquire (i, h) ∈ (history ts).log ↔ ∃ t, ts[i]? = some t ∧ AllReturn ts i ∧ acquire h ∈ t.sent :=
    tag_mem_history_iff (e := acquire h)
  have hrelease : release (i, h) ∈ (history ts).log ↔ ∃ t, ts[i]? = some t ∧ AllReturn ts i ∧ release h ∈ t.sent :=
    tag_mem_history_iff (e := release h)
  rw [LeftOpen, hacquire, hrelease]
  constructor
  · intro hopen
    obtain ⟨⟨t, ht, hreturn, hmem⟩, hnot⟩ := hopen
    exact ⟨t, ht, hreturn, hmem, fun hrel => hnot ⟨t, ht, hreturn, hrel⟩⟩
  · intro hopen
    obtain ⟨t, ht, hreturn, hmem, hnot⟩ := hopen
    refine ⟨⟨t, ht, hreturn, hmem⟩, ?_⟩
    intro hrel
    obtain ⟨t', ht', -, hrel⟩ := hrel
    obtain rfl := Option.some.inj (ht.symm.trans ht')
    exact hnot hrel

end history

end Event
