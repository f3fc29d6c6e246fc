import Joinability.Proofs.Search.Trail
import Joinability.Search.Proof

/-!
# What comes of building a proof

Building the proof of a goal mixes three things: look-ups in the tables, which cannot fail in the
forest of a search; the proofs of edges, which depend on recipes; and combinators of the engine,
which may refuse. This module keeps them apart. `BuildM.Gives` and `BuildM.Yields` say what a part
of the building answers, for as long as an invariant of the table of edges holds, and they can be
chained. `Exploration.yields_buildProof` does the look-ups once and for all: what comes of a proof
over the meeting edge is what comes of the units of the two sides, whatever the engine.
-/

namespace Joinability

variable {σ α τ π : Type}

/-! ## What building answers -/

namespace BuildM

variable {ρ ρ' : Type}

/-- In every state with the property `I`, the answer of building has the property `post`, and `I`
holds again. -/
def Yields (I : Edges τ π × σ → Prop) (m : BuildM σ τ π ρ) (post : Except Fault ρ → Prop) : Prop :=
  ∀ s, I s → ∃ answer t, m s = (answer, t) ∧ I t ∧ post answer

/-- In every state with the property `I`, building succeeds with an answer that has the property
`post`, and `I` holds again. -/
def Gives (I : Edges τ π × σ → Prop) (m : BuildM σ τ π ρ) (post : ρ → Prop) : Prop :=
  ∀ s, I s → ∃ a t, m s = (.ok a, t) ∧ I t ∧ post a

variable {I : Edges τ π × σ → Prop} {post : ρ → Prop}

theorem gives_iff_yields {m : BuildM σ τ π ρ} :
    Gives I m post ↔ Yields I m fun answer ↦ ∃ a, answer = .ok a ∧ post a := by
  constructor
  · intro h s hs
    obtain ⟨a, t, hrun, ht, ha⟩ := h s hs
    exact ⟨.ok a, t, hrun, ht, a, rfl, ha⟩
  · intro h s hs
    obtain ⟨_, t, hrun, ht, a, rfl, ha⟩ := h s hs
    exact ⟨a, t, hrun, ht, ha⟩

theorem gives_pure {a : ρ} (h : post a) : Gives I (pure a) post :=
  fun s hs ↦ ⟨a, s, rfl, hs, h⟩

theorem gives_ofExcept {answer : Except Fault ρ} {a : ρ} (h : answer = .ok a) (ha : post a) :
    Gives I (ofExcept answer) post :=
  fun s hs ↦ ⟨a, s, by rw [h]; rfl, hs, ha⟩

theorem Gives.mono {m : BuildM σ τ π ρ} {post' : ρ → Prop} (h : Gives I m post)
    (himp : ∀ a, post a → post' a) : Gives I m post' := by
  intro s hs
  obtain ⟨a, t, hrun, ht, ha⟩ := h s hs
  exact ⟨a, t, hrun, ht, himp a ha⟩

theorem Gives.bind_yields {m : BuildM σ τ π ρ'} {mid : ρ' → Prop} {f : ρ' → BuildM σ τ π ρ}
    {post : Except Fault ρ → Prop} (hm : Gives I m mid) (hf : ∀ a, mid a → Yields I (f a) post) :
    Yields I (m >>= f) post := by
  intro s hs
  obtain ⟨a, t, hrun, ht, ha⟩ := hm s hs
  obtain ⟨answer, u, hrun', hu, hanswer⟩ := hf a ha t ht
  have hbind : (m >>= f) s = ExceptT.bindCont f (m s).1 (m s).2 := rfl
  refine ⟨answer, u, ?_, hu, hanswer⟩
  rw [hbind, hrun]
  exact hrun'

theorem Gives.bind {m : BuildM σ τ π ρ'} {mid : ρ' → Prop} {f : ρ' → BuildM σ τ π ρ}
    (hm : Gives I m mid) (hf : ∀ a, mid a → Gives I (f a) post) : Gives I (m >>= f) post :=
  gives_iff_yields.mpr (hm.bind_yields fun a ha ↦ gives_iff_yields.mp (hf a ha))

theorem gives_pure_bind {a : ρ'} {f : ρ' → BuildM σ τ π ρ} (h : Gives I (f a) post) :
    Gives I (pure a >>= f) post := by
  have hpure : Gives I (pure a : BuildM σ τ π ρ') (· = a) := gives_pure rfl
  apply hpure.bind
  intro b hb
  rwa [hb]

theorem yields_ofExcept_bind {answer : Except Fault ρ'} {a : ρ'} {f : ρ' → BuildM σ τ π ρ}
    {post : Except Fault ρ → Prop} (ha : answer = .ok a) (h : Yields I (f a) post) :
    Yields I (ofExcept answer >>= f) post := by
  have hanswer : Gives I (ofExcept answer : BuildM σ τ π ρ') (· = a) := gives_ofExcept ha rfl
  apply hanswer.bind_yields
  intro b hb
  rwa [hb]

theorem gives_ofExcept_bind {answer : Except Fault ρ'} {a : ρ'} {f : ρ' → BuildM σ τ π ρ}
    (ha : answer = .ok a) (h : Gives I (f a) post) : Gives I (ofExcept answer >>= f) post :=
  gives_iff_yields.mpr (yields_ofExcept_bind ha (gives_iff_yields.mp h))

theorem yields_ofExcept_map {answer : Except Fault ρ'} {f : ρ' → ρ} {post : Except Fault ρ → Prop}
    (h : post (answer.map f)) :
    Yields I (do let a ← ofExcept answer; return f a : BuildM σ τ π ρ) post := by
  intro s hs
  refine ⟨answer.map f, s, ?_, hs, h⟩
  cases answer with
  | error fault => rfl
  | ok a => rfl

end BuildM

/-! ## From the units to the proof -/

namespace Exploration

variable {x : Exploration α τ π}

/-- **A proof over the meeting edge is as good as its units**: none of the look-ups on the way to
them fails, and what comes of the proof is what comes of putting them together. -/
theorem yields_buildProof {e : Engine σ α τ π} {I : Edges τ π × σ → Prop}
    {post : Except Fault (π × ProofUnit π × ProofUnit π) → Prop} (hx : x.skeleton.IsForest)
    {arc : Edge τ π} {u w : Vertex α} (harc : x.skeleton.edges[arc.id]? = some arc)
    (hu : x.skeleton.vertices[arc.source]? = some u)
    (hw : x.skeleton.vertices[arc.target]? = some w) (hside : w.side ≠ u.side)
    {P Q : ProofUnit π → Prop}
    (hsource : ∀ path, x.skeleton.Trail u path →
      BuildM.Gives I (buildUnit e x.vertices u.side (path ++ [arc.id])) P)
    (htarget : ∀ path, x.skeleton.Trail w path →
      BuildM.Gives I (buildUnit e x.vertices w.side path) Q)
    (hpost : ∀ source target left right, P source → Q target →
      left = u.side.pick source target → right = u.side.pick target source →
      post ((joinUnits e left right).map fun p ↦ (p, left, right))) :
    BuildM.Yields I (x.buildProof e arc.id) post := by
  obtain ⟨upath, hupath⟩ := hx.exists_trail hu
  obtain ⟨wpath, hwpath⟩ := hx.exists_trail hw
  have hidu := hx.id_eq hu
  have hidw := hx.id_eq hw
  have hget : x.edges.get arc.id = .ok arc := Edges.get_eq_ok_iff.mpr harc
  obtain ⟨u', hgetu, hsideu, hpathu⟩ := exists_get_pathFromRoot hx hupath
  obtain ⟨w', hgetw, hsidew, hpathw⟩ := exists_get_pathFromRoot hx hwpath
  rw [buildProof, hget]
  apply BuildM.yields_ofExcept_bind rfl
  rw [← hidu, ← hidw, hgetu, hgetw]
  apply BuildM.yields_ofExcept_bind rfl
  apply BuildM.yields_ofExcept_bind rfl
  rw [if_neg (by rw [hsideu, hsidew]; exact hside.symm), hpathu, hpathw, hsideu, hsidew]
  apply BuildM.yields_ofExcept_bind rfl
  apply BuildM.yields_ofExcept_bind rfl
  apply (hsource upath hupath).bind_yields
  intro source hP
  apply (htarget wpath hwpath).bind_yields
  intro target hQ
  -- the meeting edge may have been found from either side
  cases hsu : u.side with
  | left =>
    exact BuildM.yields_ofExcept_map (hpost source target source target hP hQ (by rw [hsu]; rfl)
      (by rw [hsu]; rfl))
  | right =>
    exact BuildM.yields_ofExcept_map (hpost source target target source hP hQ (by rw [hsu]; rfl)
      (by rw [hsu]; rfl))

end Exploration

end Joinability
