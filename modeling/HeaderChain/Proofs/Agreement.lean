import HeaderChain.Proofs.Addition

/-!
# Drafts that agree

Two drafts can show the same and hold it in different ways: what one has staged the other finds in
its store. Adding headers goes the same way in both. A new header forks off at the same place, what
waits is attached in the same order, because lists of children are ascending, and thus the
candidates come in the same order, so that the same one wins a tie.
-/

namespace HeaderChain

open Contest

namespace Draft

/-- Both drafts are sound for one best chain, and show the same headers and checkpoint. -/
structure Agrees (d e : Draft) (g : Hash) (b : List Link) : Prop where
  left : d.Sound g b
  right : e.Sound g b
  header? : e.header? = d.header?
  checkpoint : e.currentCheckpoint = d.currentCheckpoint

variable {d e : Draft} {g : Hash} {b : List Link} {x p : Header} {c c' : Contest}

/-- Sound drafts with the same forest, checkpoint and best chain agree. -/
theorem Sound.agrees (hd : d.Sound g b) (he : e.Sound g b)
    (hforest : forestOf e.header? = forestOf d.header?)
    (hcheckpoint : e.currentCheckpoint = d.currentCheckpoint) : d.Agrees e g b :=
  ⟨hd, he, (hcheckpoint ▸ he.exact).unique hd.exact hforest, hcheckpoint⟩

namespace Agrees

theorem isWaiting (h : d.Agrees e g b) : e.isWaiting = d.isWaiting := by
  funext edge
  rw [Bool.eq_iff_iff, h.left.edges, h.right.edges, h.header?]

/-- A new header that is put under its parent starts the same candidates in both drafts. -/
theorem join (h : d.Agrees e g b) (hx : d.header? x.hash = none)
    (hp : d.header? x.parent = some p) (hplace : p.isDisconnected = false)
    (hc : (d.contest x).perform (Contest.join p x.hash) = (.ok (), c))
    (hc' : (e.contest x).perform (Contest.join p x.hash) = (.ok (), c')) : c.Alike c' := by
  obtain ⟨s, hparent, hplaced⟩ := h.left.exact.route_of_connected hp hplace
  have hx' : e.header? x.hash = none := h.header? ▸ hx
  have hparent' : Route (forestOf e.header?) g x.parent (p.link :: s) := h.header? ▸ hparent
  obtain ⟨d₁, z, base, up, hf, hjoin⟩ := h.left.forked hx hparent
  obtain ⟨e₁, z', base', up', hf', hjoin'⟩ := h.right.forked hx' hparent'
  obtain ⟨rfl, hbase⟩ := hf.forks.unique hf'.forks
  cases hbase
  have hcheckpoint : e₁.currentCheckpoint = d₁.currentCheckpoint := by
    rw [hf'.currentCheckpoint, h.checkpoint, hf.currentCheckpoint]
  rw [← hplaced] at hjoin
  rw [h.checkpoint, ← hplaced, hcheckpoint] at hjoin'
  generalize hcands : (#[newest d₁.currentCheckpoint x.link (p.link :: s) up (z :: base)] :
    Array Candidate) = cands at hjoin'
  have halike : Alike ⟨d₁, cands⟩ ⟨e₁, cands⟩ := by
    constructor
    case candidates => rfl
    case header? =>
      funext k
      change e₁.header? k = d₁.header? k
      rw [hf.joining.header?, hf'.joining.header?, hcheckpoint, h.header?]
    case isWaiting => exact hf'.isWaiting.trans (h.isWaiting.trans hf.isWaiting.symm)
    case checkpoint => exact hcheckpoint
  subst hcands
  obtain ⟨s', u', hconnect, hconnect', -, hsame⟩ := hf.attached halike
  rw [hc, hconnect] at hjoin
  rw [hc', hconnect'] at hjoin'
  cases hjoin
  cases hjoin'
  exact hsame

theorem addHeader (h : d.Agrees e g b) (x : Header) :
    ∃ b' d' e', d.addHeader x = .ok d' ∧ e.addHeader x = .ok e' ∧
      d.Added g b [x.link] b' d' ∧ e.Added g b [x.link] b' e' := by
  have hiff : e.Idle x ↔ d.Idle x := by rw [Idle, Idle, h.header?]
  by_cases hidle : d.Idle x
  · obtain ⟨d', hd', -, hadded⟩ := h.left.addHeader_of_idle hidle
    obtain ⟨e', he', -, hadded'⟩ := h.right.addHeader_of_idle (hiff.mpr hidle)
    exact ⟨b, d', e', hd', he', hadded, hadded'⟩
  · obtain ⟨p, hx, hp, hplace, heq⟩ := h.left.addHeader_of_not_idle hidle
    obtain ⟨p', hx', hp', -, heq'⟩ := h.right.addHeader_of_not_idle (mt hiff.mp hidle)
    rw [h.header?, hp] at hp'
    cases hp'
    obtain ⟨c, b₁, d', hc, hpicked, -, hd', hadded⟩ := h.left.addConnected hx hp hplace
    obtain ⟨c', b₂, e', hc', hpicked', -, he', hadded'⟩ :=
      h.right.addConnected hx' (h.header? ▸ hp) hplace
    have halike := h.join hx hp hplace hc hc'
    rw [halike.candidates] at hpicked'
    cases hpicked.unique halike.header? hpicked'
    exact ⟨b₁, d', e', heq.trans hd', heq'.trans he', hadded, hadded'⟩

theorem added {links b' : List Link} {d' e' : Draft} (h : d.Agrees e g b)
    (hd : d.Added g b links b' d') (he : e.Added g b links b' e') : d'.Agrees e' g b' := by
  apply hd.sound.agrees he.sound
  · rw [he.forest, hd.forest, h.header?]
  · rw [currentCheckpoint_congr he.checkpoint he.base, h.checkpoint,
      currentCheckpoint_congr hd.checkpoint hd.base]

theorem addHeaders (h : d.Agrees e g b) (hs : List Header) :
    ∃ b' d' e', d.addHeaders hs = .ok d' ∧ e.addHeaders hs = .ok e' ∧
      d.Added g b (hs.map Header.link) b' d' ∧ e.Added g b (hs.map Header.link) b' e' := by
  induction hs generalizing d e b with
  | nil => exact ⟨b, d, e, rfl, rfl, .refl h.left, .refl h.right⟩
  | cons x hs ih =>
    obtain ⟨b₁, d₁, e₁, hd₁, he₁, hadded, hadded'⟩ := h.addHeader x
    obtain ⟨b₂, d₂, e₂, hd₂, he₂, hrest, hrest'⟩ := ih (h.added hadded hadded')
    refine ⟨b₂, d₂, e₂, ?_, ?_, hadded.trans hrest, hadded'.trans hrest'⟩
    · rw [Draft.addHeaders, List.foldlM_cons, hd₁]
      exact hd₂
    · rw [Draft.addHeaders, List.foldlM_cons, he₁]
      exact he₂

end Agrees

end Draft

end HeaderChain
