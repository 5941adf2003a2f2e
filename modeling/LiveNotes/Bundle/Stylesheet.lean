import LiveNotes.Bundle.VaultFiles
import LiveNotes.Text.Quoted

/-! The plugin that turns stylesheets into modules which add them to the page. -/

namespace LiveNotes.Bundle

open Text

/-- Code that adds a stylesheet to the page. -/
def styleInjection (css : String) : String :=
  "(() => \x7b\n  const style = document.createElement(\"style\");\n  style.textContent = " ++
    quoted css ++ ";\n  document.head.appendChild(style);\n\x7d)();\n"

def stylesheets : Plugin where
  name := "livedoc-styles"
  transform code id :=
    .ok (if ((Path.ofModuleId? id).map VaultFiles.isStylesheet).getD false then
      some (styleInjection code) else none)

end LiveNotes.Bundle
