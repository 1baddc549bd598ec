import MudouHttp.Lib.Reach

/-!
# Waiting for a notification

Threads sleep until they are notified, and one event of a machine, `notify`, tells them
all that they are to end. A thread that is between its test and its sleep by then may
miss it (`Gap`). `NotifyAll` is what a machine has to show; then its threads are left
asleep for that gap only (`hung_iff`), and never without it (`never_hung`).
-/

namespace MudouHttp.Lib

variable {σ ε φ : Type} {step : σ → ε → Except φ σ} {quiet : σ → ε → Prop} {notify : ε}

/-- `Due`: the next `notify` notifies all. `Ending`: it has, and the threads are waited
for. `Awake`: whoever has missed it will be told. `Hung`: someone sleeps whom nobody is
going to wake up. `quiet` are the events of a thread that wakes up for notifications
only. -/
structure NotifyAll (step : σ → ε → Except φ σ) (quiet : σ → ε → Prop) (notify : ε) where
  Sound : σ → Prop
  Due : σ → Prop
  Ending : σ → Prop
  Gap : σ → Prop
  Awake : σ → Prop
  Hung : σ → Prop
  sound : Sound s → step s e = .ok s' → Sound s'
  begins : step s e = .ok s' → Ending s' → Ending s ∨ Due s ∧ e = notify
  roused : Sound s → Due s → ¬Gap s → step s notify = .ok s' → Awake s'
  stays : Sound s → Awake s → step s e = .ok s' → Awake s'
  awake : Awake s → ¬Hung s
  ending : Hung s → Ending s
  missed : Sound s → Due s → Gap s → step s notify = .ok s' → ∃ t, Reach step quiet s' t ∧ Hung t

namespace NotifyAll

/-- After a notification of all, someone can be left asleep exactly if there was a gap. -/
theorem hung_iff (m : NotifyAll step quiet notify) (hsound : m.Sound s) (hdue : m.Due s)
    (hs : step s notify = .ok s') : (∃ t, Reach step quiet s' t ∧ m.Hung t) ↔ m.Gap s := by
  constructor
  · rintro ⟨t, ht, hhung⟩
    by_contra hgap
    obtain ⟨-, hawake⟩ := ht.invariant (P := fun s => m.Sound s ∧ m.Awake s)
      (fun _ _ _ h _ hstep => ⟨m.sound h.1 hstep, m.stays h.1 h.2 hstep⟩)
      ⟨m.sound hsound hs, m.roused hsound hdue hgap hs⟩
    exact m.awake hawake hhung
  · exact fun hgap => m.missed hsound hdue hgap hs

def Roused (m : NotifyAll step quiet notify) (s : σ) : Prop := m.Sound s ∧ (m.Ending s → m.Awake s)

theorem roused_step {m : NotifyAll step quiet notify} (h : m.Roused s)
    (hgap : e = notify → m.Due s → ¬m.Gap s) (hs : step s e = .ok s') : m.Roused s' := by
  refine ⟨m.sound h.1 hs, fun hending => ?_⟩
  rcases m.begins hs hending with hbefore | ⟨hdue, rfl⟩
  · exact m.stays h.1 (h.2 hbefore) hs
  · exact m.roused h.1 hdue (hgap rfl hdue) hs

/-- A run whose notification finds no gap leaves nobody asleep. -/
theorem never_hung (m : NotifyAll step quiet notify) {seen : σ → ε → Prop}
    (hseen : ∀ s e, seen s e → e = notify → m.Due s → ¬m.Gap s) (h₀ : m.Sound s₀)
    (hnot : ¬m.Ending s₀) (h : Reach step seen s₀ s) : ¬m.Hung s := by
  obtain ⟨-, hawake⟩ := h.invariant (P := m.Roused)
    (fun s e _ hr hm hs => roused_step hr (hseen s e hm) hs) ⟨h₀, fun hending => absurd hending hnot⟩
  exact fun hhung => m.awake (hawake (m.ending hhung)) hhung

end NotifyAll

end MudouHttp.Lib
