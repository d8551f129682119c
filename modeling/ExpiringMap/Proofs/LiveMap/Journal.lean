import ExpiringMap.Proofs.LiveMap.Custody

/-!
A journal of a map: for each sweeper what it took out and what its workers delivered, while it is
there and after it has been forgotten. What has been delivered is at all times the first part of
what was taken out, page by page.
-/

namespace ExpiringMap

open LiveMap (Move)

variable {ν : Type}

/-- What one sweeper took out, and what its workers delivered. -/
structure Page (ν : Type) where
  taken : List (Expired ν) := []
  made : List (Event ν) := []

namespace Page

def write (p : Page ν) (taken : List (Expired ν)) (made : List (Event ν)) : Page ν :=
  ⟨p.taken ++ taken, p.made ++ made⟩

/-- Deliveries so far are of the entries taken out first, each once and in the same order. -/
def Ordered (p : Page ν) : Prop := p.made.map Event.item <+: p.taken

def Complete (p : Page ν) : Prop := p.taken = p.made.map Event.item

/-- `s` has come to where it is by what is written on the page. -/
def Tells (p : Page ν) (s : Sweeper ν) : Prop :=
  ∃ s₀ : Sweeper ν, s₀.inHand = [] ∧ s₀.Passes s p.taken p.made

variable {p : Page ν} {s s' : Sweeper ν}

@[simp] theorem write_nil (p : Page ν) : p.write [] [] = p := by simp [write]

theorem tells_blank (h : s.inHand = []) : ({} : Page ν).Tells s := ⟨s, h, .refl s⟩

theorem Tells.write (h : p.Tells s) {taken : List (Expired ν)} {made : List (Event ν)}
    (hp : s.Passes s' taken made) : (p.write taken made).Tells s' := by
  obtain ⟨s₀, h₀, h⟩ := h
  exact ⟨s₀, h₀, h.trans hp⟩

theorem Tells.ordered (h : p.Tells s) : p.Ordered := by
  obtain ⟨s₀, h₀, h⟩ := h
  have hprefix := h.made_isPrefix
  rwa [h₀, List.nil_append] at hprefix

theorem Tells.complete (h : p.Tells s) (hw : 0 < s.workers) (hs : s.inHand = []) :
    p.Complete := by
  obtain ⟨s₀, h₀, h⟩ := h
  have hkept := h.kept hw
  rwa [h₀, List.nil_append, hs, List.append_nil] at hkept

end Page

structure Journal (ν : Type) where
  pages : List (Page ν) := []
  closed : List (Page ν) := []

namespace Journal

def all (j : Journal ν) : List (Page ν) := j.closed ++ j.pages

def blank (m : LiveMap ν) : Journal ν := { pages := m.sweepers.map fun _ => {} }

/-- Whoever has a turn writes down what comes of it. -/
def note (pages : List (Page ν)) (m : LiveMap ν) : Move ν → List (Page ν)
  | .turn t => pages.modify t.sweeper (·.write (m.taken (.turn t)) (m.made (.turn t)))
  | _ => pages

/-- Writes down what a move does. New sweepers get a page, and pages of those that are forgotten are
closed. -/
def enter (j : Journal ν) (m : LiveMap ν) (mv : Move ν) : Journal ν :=
  match mv with
  | .prune =>
    let filed := m.sweepers.zip j.pages
    { pages := (filed.filter (!·.1.isFinished)).map (·.2)
      closed := j.closed ++ (filed.filter (·.1.isFinished)).map (·.2) }
  | mv =>
    let fresh := (m.move mv).sweepers.length - m.sweepers.length
    { j with pages := note j.pages m mv ++ List.replicate fresh {} }

def follow (j : Journal ν) (m : LiveMap ν) : List (Move ν) → Journal ν
  | [] => j
  | mv :: mvs => (j.enter m mv).follow (m.move mv) mvs

/-- The journal of a course of moves. -/
def ofMoves (m : LiveMap ν) (mvs : List (Move ν)) : Journal ν := (blank m).follow m mvs

/-- Each page tells of its sweeper. -/
structure Matches (j : Journal ν) (m : LiveMap ν) : Prop where
  steady : m.Steady
  length : j.pages.length = m.sweepers.length
  tells : ∀ (i : Nat) (s : Sweeper ν) (p : Page ν), m.sweepers[i]? = some s →
    j.pages[i]? = some p → p.Tells s
  closed : ∀ p ∈ j.closed, p.Ordered

variable {j : Journal ν} {m : LiveMap ν} {mv : Move ν}

theorem length_note (pages : List (Page ν)) (m : LiveMap ν) (mv : Move ν) :
    (note pages m mv).length = pages.length := by
  cases mv <;> simp [note]

theorem getElem?_note (pages : List (Page ν)) (m : LiveMap ν) (mv : Move ν) (i : Nat) :
    (note pages m mv)[i]? = pages[i]?.map (·.write (m.takenBy i mv) (m.madeBy i mv)) := by
  cases mv with
  | turn t =>
    simp only [note, List.getElem?_modify, LiveMap.takenBy, LiveMap.madeBy, Option.map_eq_map]
    congr 1
    funext p
    split
    · rfl
    · exact p.write_nil.symm
  | call | wait | leave | prune | report => simp [note, LiveMap.takenBy, LiveMap.madeBy]

theorem enter_of_ne_prune (h : mv ≠ .prune) (j : Journal ν) (m : LiveMap ν) :
    j.enter m mv = { j with
      pages := note j.pages m mv ++
        List.replicate ((m.move mv).sweepers.length - m.sweepers.length) {} } := by
  cases mv with
  | prune => exact absurd rfl h
  | call | turn | wait | leave | report => rfl

theorem map_fst_filter_zip {α β : Type} (f : α → Bool) {xs : List α} {ys : List β}
    (h : ys.length = xs.length) : ((xs.zip ys).filter fun p => f p.1).map (·.1) = xs.filter f := by
  have hmap := List.filter_map (p := f) (f := Prod.fst) (l := xs.zip ys)
  rw [List.map_fst_zip h.ge] at hmap
  exact hmap.symm

theorem mem_all {p : Page ν} : p ∈ j.all ↔ p ∈ j.closed ∨ p ∈ j.pages := List.mem_append

namespace Matches

variable (h : j.Matches m)

include h

theorem mem_zip {s : Sweeper ν} {p : Page ν} (hp : (s, p) ∈ m.sweepers.zip j.pages) :
    p.Tells s ∧ s ∈ m.sweepers := by
  obtain ⟨i, hi⟩ := List.mem_iff_getElem?.1 hp
  rw [List.getElem?_zip_eq_some] at hi
  exact ⟨h.tells i s p hi.1 hi.2, List.mem_of_getElem? hi.1⟩

theorem enter_prune : (j.enter m .prune).Matches m.prune := by
  have hkept := map_fst_filter_zip (fun s : Sweeper ν => !s.isFinished) h.length
  refine ⟨h.steady.move .prune, ?_, ?_, ?_⟩
  · rw [LiveMap.prune, ← hkept, List.length_map]
    exact List.length_map _
  · intro i s p hs hp
    rw [LiveMap.prune, ← hkept, List.getElem?_map, Option.map_eq_some_iff] at hs
    obtain ⟨⟨s, p'⟩, hsp, rfl⟩ := hs
    rw [Journal.enter, List.getElem?_map, hsp] at hp
    cases hp
    exact (h.mem_zip (List.mem_filter.1 (List.mem_of_getElem? hsp)).1).1
  · intro p hp
    rcases List.mem_append.1 hp with hp | hp
    · exact h.closed p hp
    · obtain ⟨⟨s, p⟩, hsp, rfl⟩ := List.mem_map.1 hp
      exact (h.mem_zip (List.mem_filter.1 hsp).1).1.ordered

theorem enter (mv : Move ν) : (j.enter m mv).Matches (m.move mv) := by
  by_cases hne : mv = .prune
  · subst hne
    exact h.enter_prune
  rw [enter_of_ne_prune hne]
  have hadv := h.steady.advances_move hne
  have hle := hadv.length_le
  refine ⟨h.steady.move mv, ?_, ?_, h.closed⟩
  · rw [List.length_append, length_note, List.length_replicate, h.length]
    omega
  · intro i s' p' hs' hp'
    -- Pages that are there are written on, and new sweepers get blank ones behind them.
    rcases Nat.lt_or_ge i m.sweepers.length with hlt | hge
    · rw [List.getElem?_append_left (by rw [length_note, h.length]; exact hlt), getElem?_note,
        Option.map_eq_some_iff] at hp'
      obtain ⟨p, hp, rfl⟩ := hp'
      obtain ⟨s'', hs'', hpass⟩ := hadv.old i _ (List.getElem?_eq_getElem hlt)
      rw [hs', Option.some.injEq] at hs''
      exact (h.tells i _ p (List.getElem?_eq_getElem hlt) hp).write (hs'' ▸ hpass)
    · rw [hadv.new i s' hs' hge]
      rw [List.getElem?_append_right (by rw [length_note, h.length]; exact hge)] at hp'
      rw [List.eq_of_mem_replicate (List.mem_of_getElem? hp')]
      exact Page.tells_blank m.inHand_newSweeper

omit h in
theorem follow {j : Journal ν} {m : LiveMap ν} (h : j.Matches m) (mvs : List (Move ν)) :
    (j.follow m mvs).Matches (m.follow mvs) := by
  induction mvs generalizing j m with
  | nil => exact h
  | cons mv mvs ih => exact ih (h.enter mv)

theorem ordered {p : Page ν} (hp : p ∈ j.all) : p.Ordered := by
  rcases mem_all.1 hp with hp | hp
  · exact h.closed p hp
  · obtain ⟨i, hi⟩ := List.mem_iff_getElem?.1 hp
    have hlt : i < m.sweepers.length := h.length ▸ (List.getElem?_eq_some_iff.1 hi).1
    exact (h.tells i _ p (List.getElem?_eq_getElem hlt) hi).ordered

end Matches

theorem matches_blank (h : m.Steady) (hidle : ∀ s ∈ m.sweepers, s.inHand = []) :
    (blank m).Matches m where
  steady := h
  length := List.length_map _
  tells i s p hs hp := by
    rw [blank, List.getElem?_map, hs] at hp
    cases hp
    exact Page.tells_blank (hidle s (List.mem_of_getElem? hs))
  closed p hp := by cases hp

theorem flatMap_modify_perm {α β : Type} {f : α → α} {g : α → List β} {ys : List β}
    (hg : ∀ a, g (f a) = g a ++ ys) {xs : List α} {i : Nat} (hi : i < xs.length) :
    ((xs.modify i f).flatMap g).Perm (xs.flatMap g ++ ys) := by
  induction xs generalizing i with
  | nil => cases hi
  | cons x xs ih =>
    cases i with
    | zero =>
      rw [List.modify_zero_cons, List.flatMap_cons, List.flatMap_cons, hg, List.append_assoc,
        List.append_assoc]
      exact List.perm_append_comm.append_left _
    | succ i =>
      rw [List.modify_succ_cons, List.flatMap_cons, List.flatMap_cons, List.append_assoc]
      exact (ih (Nat.lt_of_succ_lt_succ hi)).append_left _

section

variable {β : Type} {g : Page ν → List β} (hblank : g {} = [])
  (hwrite : ∀ p taken made, g (p.write taken made) = g p ++ g ⟨taken, made⟩)

include hblank hwrite

theorem note_perm {pages : List (Page ν)} (hlength : pages.length = m.sweepers.length)
    (mv : Move ν) :
    ((note pages m mv).flatMap g).Perm (pages.flatMap g ++ g ⟨m.taken mv, m.made mv⟩) := by
  have hnone : g ⟨[], []⟩ = [] := hblank
  cases mv with
  | turn t =>
    by_cases hi : t.sweeper < pages.length
    · exact flatMap_modify_perm (fun p => hwrite p _ _) hi
    · have hturn : m.turn? t = none := by
        have hs : m.sweepers[t.sweeper]? = none := by
          rw [List.getElem?_eq_none_iff]
          omega
        cases t <;> simp only [LiveMap.Turn.sweeper] at hs <;> simp [LiveMap.turn?, hs]
      rw [note, List.modify_eq_self (Nat.not_lt.1 hi), LiveMap.taken_eq_nil hturn,
        LiveMap.made_eq_nil hturn, hnone, List.append_nil]
  | call | wait | leave | prune | report =>
    change (pages.flatMap g).Perm (pages.flatMap g ++ g ⟨[], []⟩)
    rw [hnone, List.append_nil]

theorem enter_perm (hlength : j.pages.length = m.sweepers.length) (mv : Move ν) :
    ((j.enter m mv).all.flatMap g).Perm (j.all.flatMap g ++ g ⟨m.taken mv, m.made mv⟩) := by
  have hnone : g ⟨[], []⟩ = [] := hblank
  by_cases hne : mv = .prune
  · subst hne
    change (_ : List β).Perm (j.all.flatMap g ++ g ⟨[], []⟩)
    rw [hnone, List.append_nil]
    refine List.Perm.flatMap_right g ?_
    have hsplit := (List.filter_append_perm (fun p : Sweeper ν × Page ν => p.1.isFinished)
      (m.sweepers.zip j.pages)).map (·.2)
    rw [List.map_append, List.map_snd_zip hlength.le] at hsplit
    rw [all, Journal.enter, List.append_assoc]
    exact hsplit.append_left j.closed
  · rw [enter_of_ne_prune hne, all, all, List.flatMap_append, List.flatMap_append,
      List.flatMap_append, List.append_assoc]
    have hfresh (n : Nat) : (List.replicate n ({} : Page ν)).flatMap g = [] := by
      rw [List.flatMap_eq_nil_iff]
      intro p hp
      rw [List.eq_of_mem_replicate hp, hblank]
    rw [hfresh, List.append_nil]
    exact (note_perm hblank hwrite hlength mv).append_left _

end

end Journal

namespace LiveMap

def takenIn (m : LiveMap ν) : List (Move ν) → List (Expired ν)
  | [] => []
  | mv :: mvs => m.taken mv ++ (m.move mv).takenIn mvs

def madeIn (m : LiveMap ν) : List (Move ν) → List (Event ν)
  | [] => []
  | mv :: mvs => m.made mv ++ (m.move mv).madeIn mvs

end LiveMap

namespace Journal

variable {j : Journal ν} {m : LiveMap ν}

/-- The journal holds what was taken out and what was delivered, each time once. -/
theorem Matches.follow_perm (h : j.Matches m) (mvs : List (Move ν)) :
    ((j.follow m mvs).all.flatMap (·.taken)).Perm (j.all.flatMap (·.taken) ++ m.takenIn mvs) ∧
      ((j.follow m mvs).all.flatMap (·.made)).Perm (j.all.flatMap (·.made) ++ m.madeIn mvs) := by
  induction mvs generalizing j m with
  | nil =>
    simp only [LiveMap.takenIn, LiveMap.madeIn, List.append_nil]
    exact ⟨.refl _, .refl _⟩
  | cons mv mvs ih =>
    obtain ⟨htaken, hmade⟩ := ih (h.enter mv)
    have htaken' := enter_perm (g := (·.taken)) rfl (fun _ _ _ => rfl) h.length mv
    have hmade' := enter_perm (g := (·.made)) rfl (fun _ _ _ => rfl) h.length mv
    rw [LiveMap.takenIn, LiveMap.madeIn, ← List.append_assoc, ← List.append_assoc]
    exact ⟨htaken.trans (htaken'.append_right _), hmade.trans (hmade'.append_right _)⟩

end Journal

end ExpiringMap
