import SchemaTypes.Text.Split

/-!
# The runtime of the base namespace

The runtime of the base namespace is fixed.  It provides the proxy that binds
the entities of a namespace on first use.
-/

namespace SchemaTypes

/-- The text of `index.js` of the base namespace. -/
def baseRuntime : String := Text.join "\n"
  ["// This is an automatically generated file. Please do not change its contents manually!",
   "const cds = require('@sap/cds')",
   "",
   "/**",
   " * Export table of one namespace whose entries bind to the runtime model on",
   " * first access. `aliases` maps every exported name to the name the runtime",
   " * knows the entity by, and whether the alias is the singular one.",
   " * @param \x7bstring\x7d namespace",
   " * @param \x7bRecord<string, [string, boolean]>\x7d aliases",
   " */",
   "function createEntitiesProxy (namespace, aliases) \x7b",
   "  const cache = new Map()",
   "",
   "  /** @param \x7bstring\x7d name the runtime entity for an alias, or undefined */",
   "  const resolve = name => \x7b",
   "    if (cache.has(name)) return cache.get(name)",
   "    const alias = aliases[name]",
   "    if (!alias) return undefined",
   "    const [original, isSingular] = alias",
   "    const entity = cds.entities(namespace)?.[original]",
   "    if (!entity) return undefined",
   "    const value = isSingular ? \x7b is_singular: true, __proto__: entity \x7d : entity",
   "    cache.set(name, value)",
   "    return value",
   "  \x7d",
   "",
   "  return new Proxy(\x7b resolve \x7d, \x7b",
   "    get: (target, name) => name in target ? target[name] : resolve(name),",
   "    has: (target, name) => name in target || name in aliases,",
   "    ownKeys: target => [...Reflect.ownKeys(target), ...Object.keys(aliases)],",
   "    getOwnPropertyDescriptor: (target, name) => Reflect.getOwnPropertyDescriptor(target, name)",
   "      ?? (name in aliases ? \x7b enumerable: true, configurable: true, value: resolve(name) \x7d : undefined),",
   "  \x7d)",
   "\x7d",
   "",
   "module.exports = \x7b createEntitiesProxy \x7d",
   ""]

end SchemaTypes
