import PagedStorage.Page.Basic

/-!
# Pages as text

The two ways a page is shown: one line for people, `summary`, and the full header with the
directory, `details`, for those who look for a fault. In both, a field is a label and its value.
-/

namespace PagedStorage.Page

/-- One line: id, links, flag, free space and slot counts. -/
def summary (p : Page) : String :=
  let h := p.header
  "page " ++ toString h.page ++ ": next=" ++ toString h.next ++ " prev=" ++ toString h.prev ++
    " overflow=" ++ toString h.overflow ++ " lower=" ++ toString h.lower ++
    " upper=" ++ toString h.upper ++ " slots=" ++ toString h.slotCount ++
    " free_slots=" ++ toString h.freeSlotCount

/-- A record of labelled fields, between braces. -/
def labelled (name : String) (fields : List (String × String)) (close : String) : String :=
  name ++ " \x7b " ++ ", ".intercalate (fields.map fun (label, text) ↦ label ++ ": " ++ text) ++
    close

/-- Every header field, and the slot ids in directory order. -/
def details (p : Page) : String :=
  let h := p.header
  let pageId (id : PageId) := "PageId(" ++ toString id ++ ")"
  let header := labelled "PageHeader" [
    ("page_id", pageId h.page), ("next_page_id", pageId h.next), ("prev_page_id", pageId h.prev),
    ("free_space_lower", toString h.lower), ("free_space_upper", toString h.upper),
    ("slot_count", toString h.slotCount), ("free_slot_count", toString h.freeSlotCount),
    ("has_overflow", toString h.overflow), ("reserved", toString h.reserved)] " \x7d"
  let ids := ", ".intercalate (p.directory.map fun s ↦ toString s.id)
  labelled "SlottedPage" [("header", header), ("directory", "[" ++ ids ++ "]")] ", .. \x7d"

end PagedStorage.Page
