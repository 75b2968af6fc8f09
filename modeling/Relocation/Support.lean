import Relocation.Text

/-!
# The support module

Compiled code imports the block class from it.
-/

namespace Relocation.Support

/-- the lines of the support module -/
def lines : List Text :=
  ["// Runtime shim for compiled module blocks.",
   "//",
   "// A compiled \x60module \x7b ... \x7d\x60 literal becomes \x60new ModuleBlock(body)\x60. The body",
   "// is materialized as a blob URL on first use only; structured clone turns a",
   "// block into a plain \x60\x7b kind: \"module-block\", body \x7d\x60 object, which",
   "// \x60ModuleBlock.fixup\x60 turns back into a block.",
   "",
   "export const CLONE_MARKER = \"kind\";",
   "export const MODULE_BLOCK_KIND = \"module-block\";",
   "",
   "export class ModuleBlock \x7b",
   "  #url = null;",
   "",
   "  constructor(body) \x7b",
   "    if (typeof body !== \"string\") \x7b",
   "      throw new TypeError(\"ModuleBlock body must be a string\");",
   "    \x7d",
   "    this[CLONE_MARKER] = MODULE_BLOCK_KIND;",
   "    this.body = body;",
   "  \x7d",
   "",
   "  get url() \x7b",
   "    if (this.#url === null) \x7b",
   "      this.#url = URL.createObjectURL(",
   "        new Blob([this.body], \x7b type: \"text/javascript\" \x7d)",
   "      );",
   "    \x7d",
   "    return this.#url;",
   "  \x7d",
   "",
   "  toString() \x7b",
   "    return \x60module \x7b $\x7bthis.body\x7d \x7d\x60;",
   "  \x7d",
   "",
   "  [Symbol.toPrimitive]() \x7b",
   "    return this.url;",
   "  \x7d",
   "",
   "  static fixup(value) \x7b",
   "    if (value instanceof ModuleBlock) \x7b",
   "      return value;",
   "    \x7d",
   "    if (",
   "      value === null ||",
   "      typeof value !== \"object\" ||",
   "      value[CLONE_MARKER] !== MODULE_BLOCK_KIND ||",
   "      typeof value.body !== \"string\"",
   "    ) \x7b",
   "      return value;",
   "    \x7d",
   "    return new ModuleBlock(value.body);",
   "  \x7d",
   "\x7d",
   ""].map Text.ofString

/-- the text of the support module -/
def source : Text := Text.join [.char '\n'] lines

end Relocation.Support
