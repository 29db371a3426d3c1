import DurableDav.Front.HttpListing

namespace DurableDav.Front

open Library Dav
open Replication (DavHttpRemote MultistatusPlatform Parses Printed Sent Undotted childPath closed encodedNames
  isValidInnerPath rootPathnameOf toInnerEntry)

/-! ### A shelf that is read both ways -/

def shelfPlatform : Platform where
  toLowerCase := fun s => s.map asciiLower
  toUpperCase := fun s => s
  encodeURIComponent := fun s => (Library.encodeURIComponent s).getD []
  decodeURIComponent := Library.decodeURIComponent
  url := fun s _ => (Replication.hostUrl s).filter fun u => u.pathname.all isAscii
  parseXmlDocument := fun s => if s = Replication.propfindBody then some (askedTree [] []) else none
  toUTCString := earlyDate

def shelfParser : MultistatusPlatform where
  toLowerCase := fun s => s.map asciiLower
  parseXmlDocument := fun s => (readDocument s).map XmlDocument.node
  url := fun s u => shelfPlatform.url (u.origin ++ s) none
  parseDate := fun s => some (1000 * digitsValue ((s.drop 23).takeWhile isDigitUnit) : ℕ)

section Shelf

theorem shelf_standard : Standard shelfPlatform where
  encode := fun s t h => by simp [shelfPlatform, h]
  decode := fun _ => rfl
  lower := fun _ _ => rfl
  lowerPrefix := fun s t _ => by
    change s.map asciiLower <+: (s ++ t).map asciiLower
    rw [List.map_append]
    exact List.prefix_append _ _
  asciiPath := fun s base u h => (Option.filter_eq_some_iff.mp h).2

theorem shelf_prints : shelfPlatform.Prints where
  encoded := uriPlatform_prints.encoded
  dates := earlyDate_printable

theorem uriUnit_ascii {c : CodeUnit} (h : Library.isUriUnit c = true) : isAscii c = true := by
  have hprintable := uriUnit_printable h
  simp only [isPrintable, decide_eq_true_eq] at hprintable
  simp only [isAscii, decide_eq_true_eq]
  omega

theorem ascii_join {ss : List JsString} (h : ∀ s ∈ ss, s.all isAscii = true) :
    (slash :: [slash].intercalate ss).all isAscii = true := by
  rw [List.all_eq_true]
  intro c hc
  rcases List.mem_cons.mp hc with rfl | hc
  · decide
  · rcases of_mem_join hc with rfl | ⟨s, hs, hc⟩
    · decide
    · exact List.all_eq_true.mp (h s hs) c hc

theorem shelfUrl_eq (s : JsString) (base : Option JsString) :
    shelfPlatform.url s base = (Replication.hostUrl s).filter fun u => u.pathname.all isAscii := rfl

theorem shelfUrl_plain {ss : List JsString} (hne : ss ≠ []) (h : ∀ s ∈ ss, Undotted s ∧ slash ∉ s)
    (hascii : ∀ s ∈ ss, s.all isAscii = true) (base : Option JsString) :
    shelfPlatform.url (js "https://h" ++ slash :: [slash].intercalate ss) base =
      some ⟨js "https://h", slash :: [slash].intercalate ss⟩ := by
  rw [shelfUrl_eq, Replication.hostUrl_plain hne h, Option.filter_some, if_pos (ascii_join hascii)]

def shelfBase : Url := ⟨js "https://h", js "/alice/v/"⟩

theorem shelf_printed {origin s : JsString} (h : Printed (fun text => shelfPlatform.url text none) origin s) :
    Printed Replication.hostUrl origin s ∧ s.all isAscii = true := by
  obtain ⟨text, path, hurl, hs⟩ := h
  obtain ⟨hhost, hascii⟩ := Option.filter_eq_some_iff.mp hurl
  refine ⟨⟨text, path, hhost, hs⟩, List.all_eq_true.mpr fun c hc => ?_⟩
  have hmem : c ∈ [slash].intercalate (path.splitOn slash) := mem_join hs hc
  rw [List.intercalate_splitOn] at hmem
  exact List.all_eq_true.mp hascii c (List.mem_cons_of_mem _ hmem)

theorem shelf_parses : Parses (fun text => shelfPlatform.url text none) shelfBase where
  canonical := ⟨js "https://h" ++ slash :: [slash].intercalate [js "alice", js "v", []],
    shelfUrl_plain (by decide) (by decide) (by decide) none⟩
  absolute := by decide
  resolve := by
    intro segments hne hkept
    have hsegment : ∀ s ∈ segments, slash ∉ s ∧ s.all isAscii = true := by
      intro s hs
      rcases hkept s hs with h | h
      · exact ⟨Replication.uriUnit_slash h, List.all_eq_true.mpr fun c hc => uriUnit_ascii (h c hc)⟩
      · obtain ⟨hprinted, hascii⟩ := shelf_printed h
        exact ⟨(Replication.printed_host hprinted).2, hascii⟩
    have hascii : ∀ s ∈ Replication.resolved segments, s.all isAscii = true := by
      intro s hs
      unfold Replication.resolved at hs
      rcases List.mem_append.mp hs with hs | hs
      · rcases Replication.foldl_subset segments [] s hs with hs | hs
        · simp at hs
        · exact (hsegment s hs).2
      · split at hs
        · rw [List.mem_singleton.mp hs]
          rfl
        · simp at hs
    have hurl := Replication.hostUrl_segments hne fun s hs => (hsegment s hs).1
    have hresolved : shelfPlatform.url (js "https://h" ++ slash :: [slash].intercalate segments) none =
        some ⟨js "https://h", slash :: [slash].intercalate (Replication.resolved segments)⟩ := by
      rw [shelfUrl_eq, hurl, Option.filter_some, if_pos (ascii_join hascii)]
    exact hresolved
  undotted := fun _ h => (Replication.printed_host (shelf_printed h).1).1

theorem shelf_dates : ∀ t ≤ maxTime, trim (shelfPlatform.toUTCString t) = shelfPlatform.toUTCString t ∧
    shelfParser.parseDate (shelfPlatform.toUTCString t) = some ((t : ℤ) - t % 1000) := by
  intro t _
  have hfirst : js "Thu, 01 Jan 1970 00:00:" = 84 :: js "hu, 01 Jan 1970 00:00:" := by decide
  have hlast : js " GMT" = js " GM" ++ [84] := by decide
  constructor
  · change trim (earlyDate t) = earlyDate t
    unfold earlyDate
    rw [hfirst, hlast]
    have hends := trim_ends (by decide : isWhiteSpace 84 = false) (by decide : isWhiteSpace 84 = false)
      (js "hu, 01 Jan 1970 00:00:" ++ ((if t / 1000 < 10 then js "0" else []) ++ (decimal (t / 1000) ++ js " GM")))
    simpa using hends
  · have hlength : (js "Thu, 01 Jan 1970 00:00:").length = 23 := by decide
    have hdigits : ∀ u ∈ (if t / 1000 < 10 then js "0" else []) ++ decimal (t / 1000), isDigitUnit u = true := by
      intro u hu
      rcases List.mem_append.mp hu with hu | hu
      · split at hu
        · rw [List.mem_singleton.mp hu]
          decide
        · cases hu
      · exact decimal_digits _ u hu
    have hvalue : digitsValue ((if t / 1000 < 10 then js "0" else []) ++ decimal (t / 1000)) = t / 1000 := by
      conv_rhs => rw [← digitsValue_decimal (t / 1000)]
      split <;> rfl
    change some ((1000 * digitsValue (((earlyDate t).drop 23).takeWhile isDigitUnit) : ℕ) : ℤ) = _
    unfold earlyDate
    rw [List.drop_left' hlength, ← List.append_assoc, List.takeWhile_append_of_pos hdigits]
    have hstop : (js " GMT").takeWhile isDigitUnit = [] := by decide
    rw [hstop, List.append_nil, hvalue, Option.some.injEq]
    omega

theorem shelf_asked : shelfPlatform.parseXmlDocument Replication.propfindBody = some (askedTree [] []) := by
  unfold shelfPlatform
  dsimp only
  rw [if_pos rfl]

theorem shelf_connects : Connects shelfPlatform shelfParser shelfBase where
  standard := shelf_standard
  prints := shelf_prints
  parses := shelf_parses
  reference := by
    rintro path u ⟨habsolute, -, hunits, hdots⟩ horigin
    obtain ⟨rest, rfl⟩ : ∃ rest, path = slash :: rest := by
      cases path with
      | nil => cases habsolute
      | cons c rest => exact ⟨rest, by rw [Option.some.inj habsolute]⟩
    rw [hasDotSegment_address, decodeName_eq shelf_standard] at hdots
    have hascii : ∀ s ∈ rest.splitOn slash, s.all isAscii = true := by
      intro s hs
      rw [List.all_eq_true]
      intro c hc
      have hmem : c ∈ [slash].intercalate (rest.splitOn slash) := mem_join hs hc
      rw [List.intercalate_splitOn] at hmem
      rcases hunits c (List.mem_cons_of_mem _ hmem) with hunit | rfl
      · exact uriUnit_ascii hunit
      · decide
    have hplain := shelfUrl_plain (List.splitOn_ne_nil _ _)
      (fun s hs => ⟨hdots.2.2 s hs, Replication.slash_notMem_segments rest s hs⟩) hascii none
    rw [List.intercalate_splitOn] at hplain
    change shelfPlatform.url (u.origin ++ slash :: rest) none = _
    rw [horigin]
    exact hplain
  xml := ⟨fun _ _ => rfl, fun d hd => by
    change (readDocument d.write).map XmlDocument.node = _
    rw [readDocument_write hd]
    rfl⟩
  asked := ⟨[], [], shelf_asked⟩
  dates := shelf_dates

theorem shelvedVolume_presentable : Presentable shelvedVolume where
  printable := shelvedVolume_printable
  unshadowed := List.forall_mem_singleton.mpr fun hns => absurd hns (by decide)
  paths := by
    intro q hq
    have hall : ∀ q ∈ Store.keys shelvedVolume.files, isValidInnerPath q = true ∧ (encodedNames q).isSome := by decide
    exact hall q (Store.mem_keys.mpr hq)
  times := by
    intro q i h
    have hall : ∀ e ∈ shelvedVolume.files, e.2.mtime ≤ maxTime := by decide
    exact hall _ (Store.mem_of_get h)
  rowTimes := by
    intro q row h
    have hall : ∀ e ∈ shelvedVolume.nodes, e.2.mtime ≤ maxTime := by decide
    exact hall _ (Store.mem_of_get h)
  sizes := by
    intro q i h
    have hall : ∀ e ∈ shelvedVolume.files, (e.2.bytes.getD []).length < 2 ^ 53 := by decide
    exact hall _ (Store.mem_of_get h)

def shelfHost (mode : HrefPrefixMode) : VolumeHost where
  env := ⟨shelfPlatform, 9, fun _ _ => none⟩
  volume := shelvedVolume
  owner := js "alice"
  name := js "v"
  mode := mode

def shelfClient (mode : HrefPrefixMode) : DavHttpRemote where
  base := shelfBase
  rootPathname := js "/alice/v/"
  rootInner := []
  authHeader := .none
  maxRedirects := 0
  resolveRedirectUrl := fun _ _ => .error (.rejected [])
  parseMultiStatus := fun _ => none
  answer := fun log => log.getLast?.map (shelfHost mode).propfind

theorem shelf_mounted (mode : HrefPrefixMode) : Mounted (shelfClient mode) shelfParser (shelfHost mode) [] where
  connects := shelf_connects
  calm := fun _ _ => rfl
  tree := shelvedVolume_wellFormed
  shown := shelvedVolume_presentable
  owner := (by decide : isValidUsername (js "alice") = true)
  name := (by decide : isValidVolumeName (js "v") = true)
  base := (by decide : closed (js "/alice/v/") = pathBaseOf (js "alice") (js "v") ++ [slash])
  inner := rfl
  root := by
    have hpath : js "/alice/v/" = slash :: [slash].intercalate [js "alice", js "v", []] := by decide
    have hurl : shelfPlatform.url (js "https://h" ++ js "/alice/v/") none = some ⟨js "https://h", js "/alice/v/"⟩ := by
      rw [hpath]
      exact shelfUrl_plain (by decide) (by decide) (by decide) none
    have hdecode : Library.decodeURIComponent (js "/alice/v/") = some (js "/alice/v/") := by
      have hsplit : js "/alice/v/" = [] ++ slash :: (js "alice" ++ slash :: (js "v" ++ slash :: [])) := by decide
      have howner : Library.decodeURIComponent (js "alice") = some (js "alice") :=
        decode_encode (encode_plain (username_plain (by decide)))
      have hname : Library.decodeURIComponent (js "v") = some (js "v") :=
        decode_encode (encode_plain (volumeName_plain (by decide)))
      rw [hsplit, decode_split (by decide) (by decide), decode_split (by decide) (by decide),
        decode_split (by decide) (by decide), howner, hname]
      rfl
    have hencoded : encodedNames (stripSlashes []) = some [] := rfl
    have hclosed : closed shelfBase.pathname ++ [slash].intercalate [] = js "/alice/v/" := by decide
    rw [Replication.rootPathnameOf_eq, hencoded, Option.bind_some]
    change (shelfPlatform.url (js "https://h" ++ (closed shelfBase.pathname ++ [slash].intercalate [])) none).bind _ = _
    rw [hclosed, hurl, Option.bind_some]
    exact hdecode

end Shelf

/-! ### Over HTTP and next door -/

section Mounted

variable {c : DavHttpRemote} {m : MultistatusPlatform} {h : VolumeHost} {remotePath path : JsString}

/-- Where the volume's addresses start at the host's root, none of them leads below the target: whatever the volume
holds, a replication over HTTP is told that there is nothing, and that this is all. -/
theorem nothing_listed (hm : Mounted c m h remotePath) (hmode : h.mode = .root)
    (hfree : h.volume.files.found (h.owner ++ slash :: h.name) = false) {log : List Sent}
    (hpath : isValidInnerPath ((DavVolumeRemote.of (some remotePath)).inner path) = true)
    (hencoded : (encodedNames ((DavVolumeRemote.of (some remotePath)).inner path)).isSome)
    (hanswer : ∀ target, c.answer (log ++ [⟨DavHttpRemote.listRequest, target, c.authHeader.authorization⟩]) =
      some (h.propfind ⟨DavHttpRemote.listRequest, target, c.authHeader.authorization⟩)) :
    ((c.listParsed m path).run log).1 = .ok ⟨[], true⟩ := by
  let d := DavVolumeRemote.of (some remotePath)
  have hne : h.owner ++ slash :: h.name ≠ [] := by simp
  obtain ⟨-, hR⟩ := root_pathname hm.connects.parses hm.owner hm.name hm.base (@valid_root path d hpath) hm.root
  rw [@listed_over_http c m h remotePath path hm log d rfl hpath hencoded hanswer]
  have hbase : hrefBaseOf h.owner h.name h.mode = [] := by
    rw [hmode]
    rfl
  have hkey {q : JsString} (hq : q = [] ∨ (Store.get h.volume.files q).isSome) (isCollection : Bool) :
      toInnerEntry (shownPathname [] q isCollection) c.rootPathname = none := by
    apply Replication.entry_outside
    left
    rintro ⟨rest, heq⟩
    rw [hR] at heq
    have htext : h.owner ++ slash :: h.name ++ slash :: (stripSlashes remotePath ++ rest) =
        q ++ if isCollection ∧ q ≠ [] then [slash] else [] := by
      have htail := congrArg List.tail heq
      simpa [pathBaseOf, shownPathname] using htail
    obtain hsame | ⟨r, hbelow⟩ : q = h.owner ++ slash :: h.name ∨ ∃ r, q = h.owner ++ slash :: h.name ++ slash :: r := by
      split at htext
      · rcases List.eq_nil_or_concat (stripSlashes remotePath ++ rest) with hnil | ⟨r, x, hconcat⟩
        · rw [hnil] at htext
          exact .inl (List.append_inj_left' htext rfl).symm
        · rw [hconcat, List.concat_eq_append, ← List.cons_append, ← List.append_assoc] at htext
          exact .inr ⟨r, (List.append_inj_left' htext rfl).symm⟩
      · exact .inr ⟨_, (htext.trans (List.append_nil q)).symm⟩
    · rw [← hsame, found_iff.mpr hq] at hfree
      cases hfree
    · have hstored := hq.resolve_left (by simp [hbelow])
      have hnone := hm.tree.nothing_below (not_directory_of_not_found hfree) ((below_of_ne hne).mpr ⟨r, hbelow⟩)
      rw [hnone] at hstored
      cases hstored
  have hnone : (shownNodes h (d.inner path)).filterMap (fun node =>
      c.toEntry (resourceOf h.env.platform m (hrefBaseOf h.owner h.name h.mode) node)) = [] := by
    have hunlisted {node : DavNodeInfo} (hstored : node.key = [] ∨ (Store.get h.volume.files node.key).isSome) :
        c.toEntry (resourceOf h.env.platform m (hrefBaseOf h.owner h.name h.mode) node) = none := by
      unfold DavHttpRemote.toEntry resourceOf
      rw [hbase, hkey hstored]
      rfl
    rw [List.filterMap_eq_nil_iff]
    intro node hnode
    apply hunlisted
    unfold shownNodes at hnode
    split at hnode
    · rename_i hfound
      rcases List.mem_cons.mp hnode with rfl | hnode
      · unfold Env.describedAt
        split
        · exact .inl rfl
        · exact found_iff.mp hfound
      · obtain ⟨q, hq, rfl⟩ := List.mem_map.mp hnode
        exact .inr (mem_below.mp (List.mem_of_mem_filter hq)).1
    · cases hnode
  rw [hnone]

theorem shelf_unlisted : (((shelfClient .root).listParsed shelfParser (js "d")).run []).1 = .ok ⟨[], true⟩ :=
  nothing_listed (shelf_mounted .root) rfl (by decide) (by decide) (by decide) fun _ => rfl

end Mounted

end DurableDav.Front
