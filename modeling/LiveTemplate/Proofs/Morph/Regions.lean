import LiveTemplate.Proofs.Dom.Filling
import LiveTemplate.Proofs.Morph.Showing

/-!
# LiveTemplate.Proofs.Morph.Regions

Morphs in front of the nodes of static trees.

A document that shows filled trees goes on showing them when a morph whose anchor is a
static node shows a value, with another region in front of the anchor.
-/

namespace LiveTemplate

namespace Dom.Shows

variable {dom base : Dom} {host : Option NodeId} {before after : List NodeId} {F : Filling}
  {ts : List (Tree NodeId)} {m : Morph} {value : Value}

/-- The first value of a morph is shown behind what stands in front of the anchor already. -/
theorem first_update (h : base.Shows host before after F ts) (hext : base.Extends dom)
    (hanchor : m.anchor ∈ forestLabels ts) {p : NodeId} (hparent : base.parent? m.anchor = some p)
    (hnodes : m.nodes = []) (hvalue : m.value = none) {trees : List (Tree NodeId)}
    (hdisplays : m.Displays base dom value trees) :
    (m.update value dom).1 = m.showing value (rootLabels trees) ∧
      (m.update value dom).2.Shows host before after
        (F.setRegion m.anchor (F.region m.anchor ++ trees)) ts ∧
      base.Replaced (m.update value dom).2 p m.anchor (F.region m.anchor)
        (F.region m.anchor ++ trees) := by
  obtain ⟨hp, hpold, hregion⟩ := h.region_of_parent hanchor hparent
  have hplt : m.anchor.index < base.size := h.index_lt hanchor
  have hparent' : dom.parent? m.anchor = some p := by
    rw [Dom.parent?, hext.record_eq _ hplt]
    exact hparent
  have hupdate : m.update value dom = m.replace value p dom := by
    rw [Morph.update_of_nodes_eq_nil hnodes hvalue, hparent']
  have hremove : Morph.removeNodes dom p m.nodes = dom := by rw [hnodes]; rfl
  obtain ⟨hmorph, hreplaced⟩ := m.replaced_replace (by rw [hremove]; exact hext)
    (by rw [hremove]; exact hdisplays) hregion hp hpold
  obtain ⟨hnodup, hfresh⟩ := hdisplays.labels hext.size_le
  rw [hupdate]
  refine ⟨hmorph, h.replace hanchor hparent hreplaced ?_ fun x hx => ?_, hreplaced⟩
  · rw [forestLabels_append, List.nodup_append]
    refine ⟨h.apart.nodup _ hanchor, hnodup, fun x hx y hy hxy => ?_⟩
    have hlt := h.region_index_lt hanchor hx
    have hge := hfresh y hy
    rw [hxy] at hlt
    exact absurd hlt (Nat.not_lt.2 hge)
  · rw [forestLabels_append, List.mem_append] at hx
    rcases hx with hx | hx
    · exact .inl hx
    · exact .inr (hfresh x hx)

/-- A later value of a morph replaces the region of the morph. -/
theorem update (h : dom.Shows host before after F ts) (hanchor : m.anchor ∈ forestLabels ts)
    {p : NodeId} (hparent : dom.parent? m.anchor = some p)
    (hnodes : m.nodes = rootLabels (F.region m.anchor)) (hnode : value.isNode = false) :
    ∃ new, m.Updated value dom p (F.region m.anchor) new ∧
      (m.update value dom).2.Shows host before after (F.setRegion m.anchor new) ts := by
  obtain ⟨hp, hpold, hregion⟩ := h.region_of_parent hanchor hparent
  obtain ⟨new, hnew⟩ := m.updated_update hnode hparent hnodes hregion
    (h.apart.nodup m.anchor hanchor) hp hpold
  exact ⟨new, hnew, h.replace hanchor hparent hnew.replaced hnew.nodup hnew.old_or_fresh⟩

end Dom.Shows

end LiveTemplate
