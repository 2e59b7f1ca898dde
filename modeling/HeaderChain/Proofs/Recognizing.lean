import HeaderChain.Encoding.Cursor
import Mathlib.Tactic

/-!
# Readers and the forms that they accept

A grammar says which byte strings are forms of a value. A reader recognizes it when it takes just
the forms off the front of what is before it, whatever comes after them, and reports missing bytes
on a form that is cut short. Then no form is the beginning of another one. Readers that are run one
after the other recognize the forms of the first followed by those of the second.
-/

namespace HeaderChain

/-! ## Byte strings that are no longer -/

def Bytes.Shortens (short long : Bytes) : Prop := short = long ∨ short.length < long.length

namespace Bytes.Shortens

variable {short long short' long' : Bytes}

theorem refl (bytes : Bytes) : Shortens bytes bytes := .inl rfl

theorem length_le (h : Shortens short long) : short.length ≤ long.length := by
  obtain rfl | hlt := h
  · exact le_rfl
  · exact hlt.le

theorem length_eq_iff (h : Shortens short long) : short.length = long.length ↔ short = long := by
  constructor
  · intro hlen
    exact h.resolve_right hlen.not_lt
  · rintro rfl
    rfl

theorem append (h : Shortens short long) (h' : Shortens short' long') :
    Shortens (short ++ short') (long ++ long') := by
  have hle := h.length_le
  have hle' := h'.length_le
  obtain rfl | hlt := h
  · obtain rfl | hlt' := h'
    · exact .inl rfl
    · exact .inr (by simpa using hlt')
  · exact .inr (by simp only [List.length_append]; omega)

end Bytes.Shortens

/-- Where a form and what follows it are cut, either the form is cut short or it is there as a
whole. -/
theorem Bytes.append_eq_append_cases {front back form rest : Bytes}
    (h : front ++ back = form ++ rest) : (∃ left, left ≠ [] ∧ form = front ++ left) ∨
      ∃ front', front = form ++ front' ∧ rest = front' ++ back := by
  obtain ⟨left, hform, hback⟩ | ⟨front', hfront, hrest⟩ := List.append_eq_append_iff.mp h
  · by_cases hleft : left = []
    · subst hleft
      rw [List.append_nil] at hform
      exact .inr ⟨[], by rw [hform, List.append_nil], hback.symm⟩
    · exact .inl ⟨left, hleft, hform⟩
  · exact .inr ⟨front', hfront, hrest⟩

/-! ## Recognizing -/

namespace Cursor

abbrev Reader (α : Type) := Cursor → Except DecodeError (α × Cursor)

def byte : Reader UInt8 := fun c => (c.take 1).map fun s => (s.1.headD 0, s.2)

variable {α β : Type} {read : Reader α} {next : α → Reader β} {forms forms' : α → Bytes → Prop}
  {more : α → β → Bytes → Prop} {a : α} {bytes form rest front back : Bytes} {offset : ℕ}
  {c c' : Cursor}

theorem take_eq_error_iff {n : ℕ} {cause : DecodeError} :
    c.take n = .error cause ↔ c.rest.length < n ∧ cause = .truncated c.offset := by
  rw [← Bytes.split?_eq_none_iff, Cursor.take]
  cases Bytes.split? n c.rest with
  | none => simp [eq_comm]
  | some parts => simp

/-- The reader takes just the forms of the values, each with its value. -/
structure Recognizes (read : Reader α) (forms : α → Bytes → Prop) : Prop where
  /-- What is taken is a form of the value. -/
  sound {c : Cursor} {a : α} {c' : Cursor} : read c = .ok (a, c') →
    ∃ form, forms a form ∧ c = ⟨c.offset, form ++ c'.rest⟩ ∧ c'.offset = c.offset + form.length
  /-- A form is taken, whatever comes after it. -/
  complete {a : α} {form : Bytes} (h : forms a form) (offset : ℕ) (rest : Bytes) :
    read ⟨offset, form ++ rest⟩ = .ok (a, ⟨offset + form.length, rest⟩)
  /-- A form that is cut short lacks bytes. -/
  cut {a : α} {front back : Bytes} (h : forms a (front ++ back)) (hback : back ≠ [])
    (offset : ℕ) : ∃ place, read ⟨offset, front⟩ = .error (.truncated place)

namespace Recognizes

theorem congr (h : Recognizes read forms) (hforms : ∀ a form, forms a form ↔ forms' a form) :
    Recognizes read forms' := by
  have heq : forms = forms' := funext fun a => funext fun form => propext (hforms a form)
  exact heq ▸ h

/-- A value that is returned at once has the empty form. -/
theorem pure (a : α) : Recognizes (fun c => .ok (a, c)) fun b form => b = a ∧ form = [] where
  sound h := by
    cases h
    exact ⟨[], ⟨rfl, rfl⟩, rfl, rfl⟩
  complete := by
    rintro _ _ ⟨rfl, rfl⟩ offset rest
    rfl
  cut h hback := absurd (List.append_eq_nil_iff.mp h.2).2 hback

theorem check (p : Prop) [Decidable p] (a : α) (cause : DecodeError) :
    Recognizes (fun c => if p then .ok (a, c) else .error cause) fun b form =>
      p ∧ b = a ∧ form = [] := by
  by_cases hp : p
  · simp only [hp, if_true, true_and]
    exact pure a
  · simp only [hp, if_false, false_and]
    constructor
    · intro c b c' h
      cases h
    · exact fun h => h.elim
    · exact fun h => h.elim

theorem take (n : ℕ) : Recognizes (Cursor.take n) fun bytes form =>
    form = bytes ∧ bytes.length = n where
  sound {c bytes c'} h := by
    unfold Cursor.take at h
    split at h
    · cases h
    · rename_i hsplit
      cases h
      obtain ⟨hrest, hlen⟩ := Bytes.split?_eq_some hsplit
      exact ⟨bytes, ⟨rfl, hlen⟩, congrArg (Cursor.mk c.offset) hrest, by rw [hlen]⟩
  complete := by
    rintro bytes _ ⟨rfl, rfl⟩ offset rest
    simp [Cursor.take]
  cut {bytes front back} h hback offset := by
    obtain ⟨rfl, hlen⟩ := h
    have hpos := List.length_pos_of_ne_nil hback
    have hshort : front.length < n := by
      rw [List.length_append] at hlen
      omega
    exact ⟨offset, take_eq_error_iff.mpr ⟨hshort, rfl⟩⟩

theorem map (h : Recognizes read forms) (f : α → β) :
    Recognizes (fun c => (read c).map fun s => (f s.1, s.2)) fun b form =>
      ∃ a, forms a form ∧ b = f a where
  sound {c b c'} hread := by
    cases hfirst : read c with
    | error cause =>
      rw [hfirst] at hread
      cases hread
    | ok s =>
      rw [hfirst] at hread
      cases hread
      obtain ⟨form, hform, hc⟩ := h.sound hfirst
      exact ⟨form, ⟨s.1, hform, rfl⟩, hc⟩
  complete := by
    rintro _ form ⟨a, hform, rfl⟩ offset rest
    rw [h.complete hform]
    rfl
  cut := by
    rintro _ front back ⟨a, hform, rfl⟩ hback offset
    obtain ⟨place, hplace⟩ := h.cut hform hback offset
    exact ⟨place, by rw [hplace]; rfl⟩

theorem byte : Recognizes Cursor.byte fun first form => form = [first] := by
  refine ((Recognizes.take 1).map fun bytes => bytes.headD 0).congr fun first form => ?_
  constructor
  · rintro ⟨bytes, ⟨rfl, hlen⟩, rfl⟩
    obtain ⟨first, rfl⟩ := List.length_eq_one_iff.mp hlen
    rfl
  · rintro rfl
    exact ⟨[first], ⟨rfl, rfl⟩, rfl⟩

theorem bind (h : Recognizes read forms) (hnext : ∀ a, Recognizes (next a) (more a)) :
    Recognizes (fun c => read c >>= fun s => next s.1 s.2) fun b form =>
      ∃ a front back, forms a front ∧ more a b back ∧ form = front ++ back where
  sound {c b c'} hread := by
    cases hfirst : read c with
    | error cause =>
      rw [hfirst] at hread
      cases hread
    | ok s =>
      rw [hfirst] at hread
      obtain ⟨front, hfront, hc, hoffset⟩ := h.sound hfirst
      obtain ⟨back, hback, hs, hoffset'⟩ := (hnext s.1).sound hread
      have hrest : s.2.rest = back ++ c'.rest := congrArg Cursor.rest hs
      refine ⟨front ++ back, ⟨s.1, front, back, hfront, hback, rfl⟩, ?_, ?_⟩
      · rw [hrest] at hc
        rw [List.append_assoc]
        exact hc
      · rw [hoffset', hoffset, List.length_append, Nat.add_assoc]
  complete := by
    rintro b _ ⟨a, front, back, hfront, hback, rfl⟩ offset rest
    rw [List.append_assoc, h.complete hfront]
    change next a ⟨offset + front.length, back ++ rest⟩ = _
    rw [(hnext a).complete hback, List.length_append, Nat.add_assoc]
  cut := by
    rintro b front back ⟨a, form, rest, hform, hrest, happend⟩ hback offset
    obtain ⟨left, hleft, rfl⟩ | ⟨front', rfl, rfl⟩ := Bytes.append_eq_append_cases happend
    · obtain ⟨place, hplace⟩ := h.cut hform hleft offset
      exact ⟨place, by rw [hplace]; rfl⟩
    · obtain ⟨place, hplace⟩ := (hnext a).cut hrest hback (offset + form.length)
      refine ⟨place, ?_⟩
      rw [h.complete hform]
      exact hplace

end Recognizes

end Cursor

end HeaderChain
